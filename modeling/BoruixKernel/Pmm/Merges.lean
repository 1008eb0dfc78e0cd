import BoruixKernel.Pmm.Meminfo

/-!
# The metadata that merging touches

`free_and_merge` looks at the buddy of a block before it knows whether the buddy is a block at all.
The check that the buddy lies below the end of memory does not help if it lies in a hole of the
memory map: then `init` may not have allocated the metadata block that describes it.

The calls of `free_and_merge` that an operation makes are listed as the code makes them, with the
state each is made in (`Merge`), and so are the frames whose metadata such a call touches
(`mergeTouches`).  Whatever a call touches besides the buddies is a block of the allocator, and has
metadata.  For the buddies it is a condition on the memory map (`BuddiesMapped`).
-/

namespace BoruixKernel

open LinkedList List

namespace Pmm

/-! ## What is touched -/

/-- The frames whose metadata `push_to_global` touches. -/
def pushTouches (p : Pmm) (pfn order : Nat) : List Nat :=
  pfn :: (p.lists order (shardForPfn pfn)).toList

/-- The frames whose metadata `remove_from_list_with_list` touches. -/
def removeTouches (p : Pmm) (pfn : Nat) : List Nat :=
  pfn :: ((p.frames pfn).prev.toList ++ (p.frames pfn).next.toList)

/-- The frames whose metadata `free_and_merge` touches. -/
def mergeTouches (p : Pmm) (pfn order : Nat) : List Nat :=
  if _h : order < MAX_ORDER - 1 then
    let buddyPfn := pfn ^^^ 2 ^ order
    if buddyPfn ≥ p.totalFrames then p.pushTouches pfn order
    else
      let buddy := p.frames buddyPfn
      if buddy.state ≠ .FreeGlobal ∨ buddy.order ≠ order then buddyPfn :: p.pushTouches pfn order
      else
        buddyPfn :: (p.removeTouches buddyPfn ++
          (p.takeGlobal buddyPfn order).mergeTouches (if buddyPfn < pfn then buddyPfn else pfn) (order + 1))
  else p.pushTouches pfn order
termination_by MAX_ORDER - 1 - order

/-- A call of `free_and_merge`, and the state it is made in. -/
structure Merge where
  state : Pmm
  pfn : Nat
  order : Nat

def Merge.touched (m : Merge) : List Nat := m.state.mergeTouches m.pfn m.order

/-! ## The calls an operation makes -/

def gapMerges (p : Pmm) (cursor alignedStart : Nat) : List Merge :=
  if _h : cursor < alignedStart then
    let orderGap := gapOrder cursor alignedStart
    let p := p.modifyFrame cursor fun _ => .detached orderGap
    ⟨p, cursor, orderGap⟩ ::
      (p.freeAndMerge cursor orderGap).gapMerges (cursor + 2 ^ orderGap) alignedStart
  else []
termination_by alignedStart - cursor
decreasing_by
  have := Nat.two_pow_pos (gapOrder cursor alignedStart)
  omega

def regionMerges (p : Pmm) (order : Nat) : List Nat → List Merge
  | [] => []
  | i :: rest =>
    match p.regions.getD i none with
    | some region =>
      let alignedStart := alignFrame region.startPfn (2 ^ order)
      if alignedStart + 2 ^ order ≤ region.endPfn then p.gapMerges region.startPfn alignedStart
      else p.regionMerges order rest
    | none => p.regionMerges order rest

/-- The calls of `alloc_global`, which are those of `alloc_from_uninit`. -/
def globalMerges (p : Pmm) (order cpu : Nat) : List Merge :=
  match p.allocFromList order cpu with
  | (some _, _) => []
  | (none, p) =>
    let len := p.regions.length
    p.regionMerges order ((List.range len).map fun offset => (p.lastUninitIdx + offset) % len)

def refillMerges (cpu order : Nat) : Nat → Option Nat → Pmm → List Merge
  | 0, _, _ => []
  | n + 1, first, p =>
    p.globalMerges order cpu ++
      match p.allocGlobal order cpu with
      | (some pfn, p) =>
        match first with
        | none => refillMerges cpu order n (some pfn) p
        | some first => refillMerges cpu order n (some first) (p.percpuPushRaw cpu pfn order)
      | (none, _) => []

def findMerges (p : Pmm) (order cpu : Nat) : List Merge :=
  match p.percpuPopRaw cpu order with
  | (some _, _) => []
  | (none, p) =>
    refillMerges cpu order (perCpuBatch order) none p ++
      match p.percpuRefill cpu order with
      | (some _, _) => []
      | (none, p) => p.globalMerges order cpu

def drainMerges (cpu order : Nat) : Nat → Pmm → List Merge
  | 0, _ => []
  | n + 1, p =>
    match p.percpuPopRaw cpu order with
    | (some drained, p) =>
      ⟨p, drained, order⟩ :: drainMerges cpu order n (p.freeAndMerge drained order)
    | (none, _) => []

def slotMerges : List (Nat × Nat) → Pmm → List Merge
  | [], _ => []
  | (cpu, order) :: slots, p =>
    drainMerges cpu order p.totalFrames p ++ slotMerges slots (drainCache cpu order p.totalFrames p)

def compactMerges (p : Pmm) : List Merge := slotMerges cacheSlots p

def allocateMerges (p : Pmm) (rawCpu order : Nat) : List Merge :=
  if order ≥ MAX_ORDER then []
  else
    let p := { p with allocCalls := (p.allocCalls + 1) % 2 ^ 64 }
    let cpu := currentCpuId rawCpu
    p.findMerges order cpu ++
      match p.findBlock order cpu with
      | (some _, _) => []
      | (none, p) =>
        if order > 0 ∧ p.allocCalls - p.compactLastAllocCall ≥ 1024 ∧ p.maxFreeOrder < order then
          let p := { p with compactLastAllocCall := p.allocCalls }
          p.compactMerges ++ p.compact.globalMerges order cpu
        else []

def deallocateMerges (p : Pmm) (rawCpu pfn : Nat) : List Merge :=
  if pfn ≥ p.totalFrames then []
  else if !p.metadata (pfn / framesPerBlock) then []
  else if (p.frames pfn).state ≠ .Allocated then []
  else
    let order := (p.frames pfn).order
    if order = 0 ∧ p.reserveCount < reserveTarget then []
    else
      let cpu := currentCpuId rawCpu
      let p := p.percpuPushRaw cpu pfn order
      drainMerges cpu order ((p.caches (cpu % MAX_CPUS)).counts order - perCpuLimit order) p

/-! ### The gap before an aligned block -/

/-- The frame is one of the block that the call frees. -/
def Merge.Frees (m : Merge) (x : Nat) : Prop := m.pfn ≤ x ∧ x < m.pfn + 2 ^ m.order

/-- A round of the gap loop: the metadata of the block is written, and then the call is made. -/
def gapRound (p : Pmm) (m : Merge) : Pmm :=
  (p.modifyFrame m.pfn fun _ => .detached m.order).freeAndMerge m.pfn m.order

/-- The blocks that the loop frees lie apart, each has an order of the allocator and starts at a
multiple of its size, and together they are the gap. -/
theorem gapMerges_tile (p : Pmm) (start aligned : Nat) :
    (p.gapMerges start aligned).foldl gapRound p = p.freeGap start aligned ∧
      (p.gapMerges start aligned).Pairwise (fun m n => ∀ x, ¬ (m.Frees x ∧ n.Frees x)) ∧
      (∀ m ∈ p.gapMerges start aligned, m.order ≤ 18 ∧ 2 ^ m.order ∣ m.pfn) ∧
      ∀ x, (∃ m ∈ p.gapMerges start aligned, m.Frees x) ↔ start ≤ x ∧ x < aligned := by
  fun_induction gapMerges p start aligned with
  | case1 p cursor hlt orderGap q ih =>
    obtain ⟨hrun, hapart, hblocks, hunion⟩ := ih
    obtain ⟨hal, hle, hk⟩ := gapOrder_spec hlt
    -- Every later block lies behind the first one, since the later ones fill the rest of the gap.
    have hbehind : ∀ n ∈ (q.freeAndMerge cursor orderGap).gapMerges (cursor + 2 ^ orderGap) aligned,
        ∀ x, n.Frees x → cursor + 2 ^ orderGap ≤ x := fun n hn x hx => ((hunion x).mp ⟨n, hn, hx⟩).1
    refine ⟨?_, pairwise_cons.mpr ⟨?_, hapart⟩, forall_mem_cons.mpr ⟨⟨Nat.le_of_lt_succ hk, hal⟩, hblocks⟩, ?_⟩
    · rw [freeGap, dif_pos hlt]
      exact hrun
    · intro n hn x hx
      exact absurd (hbehind n hn x hx.2) (Nat.not_le.mpr hx.1.2)
    · intro x
      simp only [mem_cons, exists_eq_or_imp]
      rw [hunion x]
      change cursor ≤ x ∧ x < cursor + 2 ^ orderGap ∨ _ ↔ _
      change cursor + 2 ^ orderGap ≤ aligned at hle
      have hpos := Nat.two_pow_pos orderGap
      omega
  | case2 p cursor hge =>
    rw [freeGap, dif_neg hge]
    simp
    omega

/-! ## Steps and metadata -/

variable {x : Nat}

section Steps

variable {s t : Pmm × Owners}

theorem Step.metadata (h : Step s t) :
    t.1.metadata = s.1.metadata ∧ t.1.totalFrames = s.1.totalFrames := by
  cases h with
  | list h => exact ⟨h.listsOnly.metadata, h.listsOnly.totalFrames⟩
  | @cachePop p p' own cpu b k hpop =>
    have hrest := percpuPopRaw_rest p cpu k
    rw [hpop] at hrest
    exact ⟨hrest.metadata, hrest.totalFrames⟩
  | @reservePop p p' own b hpop =>
    have hrest := reservePop_rest p
    rw [hpop] at hrest
    exact ⟨hrest.metadata, hrest.totalFrames⟩
  | cachePush | reservePush | counters => exact ⟨rfl, rfl⟩

theorem ListStep.none_iff (h : ListStep s t) (hrep : Rep s.1 s.2) : t.2 x = none ↔ s.2 x = none := by
  cases h with
  | push hb _ _ => exact hrep.whole.move_none hb
  | take hb => exact hrep.whole.move_none hb
  | relabel _ hx => exact hx.none_iff
  | write | region => exact Iff.rfl

/-- No frame is lost, and none is added. -/
theorem Step.none_iff (h : Step s t) (hrep : Rep s.1 s.2) : t.2 x = none ↔ s.2 x = none := by
  cases h with
  | list h => exact h.none_iff hrep
  | cachePop hpop => exact hrep.whole.move_none (hrep.percpuPopRaw hpop).1
  | cachePush cpu hb => exact hrep.whole.move_none hb
  | reservePop hpop => exact hrep.whole.move_none (hrep.reservePop hpop).1
  | reservePush hb _ => exact hrep.whole.move_none hb
  | counters => exact Iff.rfl

/-- What the allocator manages stays the same. -/
structure SameFrames (s t : Pmm × Owners) : Prop where
  metadata : t.1.metadata = s.1.metadata
  totalFrames : t.1.totalFrames = s.1.totalFrames
  none_iff : ∀ x, t.2 x = none ↔ s.2 x = none

theorem Steps.sameFrames (h : Steps s t) (hrep : Rep s.1 s.2) : SameFrames s t := by
  refine h.invariant (I := SameFrames s) (fun {u v} hu hI hstep => ?_) hrep ⟨rfl, rfl, fun _ => .rfl⟩
  exact ⟨hstep.metadata.1.trans hI.metadata, hstep.metadata.2.trans hI.totalFrames,
    fun x => (hstep.none_iff hu).trans (hI.none_iff x)⟩

end Steps

/-! ## What a call touches -/

/-- The buddy of any block of managed frames has metadata, or lies behind the end of memory. -/
def Buddied (p : Pmm) (own : Owners) : Prop :=
  ∀ {b k}, k < MAX_ORDER - 1 → 2 ^ k ∣ b → (∀ x, b ≤ x ∧ x < b + 2 ^ k → own x ≠ none) →
    b ^^^ 2 ^ k < p.totalFrames → p.metadata ((b ^^^ 2 ^ k) / framesPerBlock) = true

theorem Buddied.of_same (h : Buddied s.1 s.2) (hsame : SameFrames s t) : Buddied t.1 t.2 := by
  intro b k hk hal hmanaged hlt
  rw [hsame.totalFrames] at hlt
  rw [hsame.metadata]
  exact h hk hal (fun x hx => mt (hsame.none_iff x).mpr (hmanaged x hx)) hlt

theorem Rep.touched_push (h : Rep p own) (hb : own b ≠ none) (hx : x ∈ p.pushTouches b k) :
    p.metadata (x / framesPerBlock) = true := by
  rcases mem_cons.mp hx with rfl | hhead
  · exact (h.bound hb).2
  · have hown := (h.head_global (Option.mem_toList.mp hhead)).1
    exact (h.bound (by simp [hown])).2

theorem Rep.touched_remove (h : Rep p own) (hb : own b = some (.block b k .global))
    (hx : x ∈ p.removeTouches b) : p.metadata (x / framesPerBlock) = true := by
  obtain ⟨l, hl, hmem⟩ := h.global k (shardForPfn b)
  have hbl : b ∈ l := (hmem b).mpr ⟨hb, rfl⟩
  -- All three are in the list.
  have hxl : x ∈ l := by
    rcases mem_cons.mp hx with rfl | hx
    · exact hbl
    · rcases mem_append.mp hx with hprev | hnext
      · have hprev : p.prev b = some x := Option.mem_toList.mp hprev
        rcases hl.prev_mem hbl with ⟨-, hnone⟩ | ⟨-, y, hy, hsome, -⟩
        · rw [hnone] at hprev
          cases hprev
        · rw [hsome] at hprev
          cases hprev
          exact hy
      · exact (hl.next_mem hbl (Option.mem_toList.mp hnext)).1
  exact (h.bound (by simp [((hmem x).mp hxl).1])).2

/-- All that the call touches has metadata. -/
theorem Rep.touched (h : Rep p own) (hbuddied : Buddied p own) (hb : own b = some (.block b k .loose))
    (hx : x ∈ p.mergeTouches b k) : p.metadata (x / framesPerBlock) = true := by
  have hsome : own b ≠ none := by simp [hb]
  induction hn : MAX_ORDER - 1 - k generalizing p own b k with
  | zero =>
    rw [mergeTouches, dif_neg (by omega)] at hx
    exact h.touched_push hsome hx
  | succ n ih =>
    have hk : k < MAX_ORDER - 1 := by omega
    rw [mergeTouches, dif_pos hk] at hx
    simp only [] at hx
    split at hx
    · exact h.touched_push hsome hx
    · next hlt =>
      have hbuddy : p.metadata ((b ^^^ 2 ^ k) / framesPerBlock) = true :=
        hbuddied hk (h.whole.aligned hb) (fun y hy => by simp [h.whole.whole hb hy]) (Nat.lt_of_not_le hlt)
      split at hx
      · rcases mem_cons.mp hx with rfl | hx
        · exact hbuddy
        · exact h.touched_push hsome hx
      · next htag =>
        simp only [ne_eq, not_or, Decidable.not_not] at htag
        obtain ⟨o, ho⟩ := h.free htag.1
        obtain rfl : o = k := (h.tag ho (by simp)).1.symm.trans htag.2
        obtain ⟨own', hlisted, hself, -⟩ := h.mergeBuddy hb ho hk
        have hsame := hlisted.steps.steps.sameFrames h
        rcases mem_cons.mp hx with rfl | hx
        · exact hbuddy
        · rcases mem_append.mp hx with hx | hx
          · exact h.touched_remove ho hx
          · have hrest := ih hlisted.rep (hbuddied.of_same hsame) hself hx (by simp [hself]) (by omega)
            rwa [hsame.metadata] at hrest

/-! ## The calls are made with blocks of the allocator -/

/-- The call is made with a block in no list, in a state that is reached by steps. -/
def Merge.From (s : Pmm × Owners) (m : Merge) : Prop :=
  ∃ own, Rep m.state own ∧ own m.pfn = some (.block m.pfn m.order .loose) ∧ Steps s (m.state, own)

theorem Merge.From.after {s t : Pmm × Owners} {m : Merge} (h : m.From t) (hsteps : Steps s t) : m.From s := by
  obtain ⟨own, hrep, hb, hrest⟩ := h
  exact ⟨own, hrep, hb, hsteps.trans hrest⟩

theorem Rep.gapMerges {cursor aligned : Nat} (h : Rep p own)
    (hfree : ∀ x, cursor ≤ x ∧ x < aligned → own x = some .uninit) (hm : m ∈ p.gapMerges cursor aligned) :
    m.From (p, own) := by
  induction hn : aligned - cursor using Nat.strongRecOn generalizing p own cursor with
  | _ n ih =>
    rw [Pmm.gapMerges] at hm
    split at hm
    · next hlt =>
      have hpos := Nat.two_pow_pos (gapOrder cursor aligned)
      obtain ⟨-, hle, -⟩ := gapOrder_spec hlt
      rcases mem_cons.mp hm with rfl | hm
      · obtain ⟨hloose, hsteps⟩ := h.gapLoose hlt hfree
        exact ⟨_, hloose, Owners.assign_self, hsteps.steps⟩
      · obtain ⟨own1, hrep, -, huninit, -, hsteps⟩ := h.gapBlock hlt hfree
        refine (ih (aligned - (cursor + 2 ^ gapOrder cursor aligned)) (by omega) hrep
          (fun x hx => (huninit x).mpr ⟨hfree x (by omega), by omega⟩) hm rfl).after hsteps.steps
    · cases hm

theorem Inv.regionMerges (h : Inv p own) (hm : m ∈ p.regionMerges k is) : m.From (p, own) := by
  induction is with
  | nil => cases hm
  | cons i is ih =>
    rw [Pmm.regionMerges] at hm
    split at hm
    · next r hr =>
      simp only [] at hm
      split at hm
      · next hfits =>
        refine h.toRep.gapMerges (fun x hx => h.region_uninit hr ⟨hx.1, ?_⟩) hm
        have := Nat.two_pow_pos k
        omega
      · exact ih hm
    · exact ih hm

theorem Inv.globalMerges (h : Inv p own) (hm : m ∈ p.globalMerges k cpu) : m.From (p, own) := by
  rw [Pmm.globalMerges] at hm
  split at hm
  · cases hm
  · next p1 hlist =>
    obtain rfl := allocFromList_none hlist
    exact h.regionMerges hm

theorem Inv.refillMerges (h : Inv p own) (hk : k < MAX_ORDER) {first : Option Nat}
    (hm : m ∈ Pmm.refillMerges cpu k n first p) : m.From (p, own) := by
  induction n generalizing p own first with
  | zero => cases hm
  | succ n ih =>
    rw [Pmm.refillMerges] at hm
    rcases mem_append.mp hm with hm | hm
    · exact h.globalMerges hm
    split at hm
    · next b p1 halloc =>
      obtain ⟨own1, hinv1, htaken, hsteps1⟩ := h.allocGlobal hk halloc
      cases first with
      | none => exact (ih hinv1 hm).after hsteps1.steps
      | some first =>
        obtain ⟨own2, hquiet2, -⟩ := hinv1.toRep.quiet_percpuPushRaw cpu htaken.self
        exact (ih (hinv1.quiet hquiet2) hm).after (hsteps1.steps.trans hquiet2.steps)
    · cases hm

theorem Inv.findMerges (h : Inv p own) (hk : k < MAX_ORDER) (hm : m ∈ p.findMerges k cpu) :
    m.From (p, own) := by
  rw [Pmm.findMerges] at hm
  split at hm
  · cases hm
  · next p1 hpop =>
    obtain rfl := percpuPopRaw_none hpop
    rcases mem_append.mp hm with hbatch | hrest
    · exact h.refillMerges hk hbatch
    split at hrest
    · cases hrest
    · next p2 hrefill =>
      obtain rfl := percpuRefill_none hrefill
      exact h.globalMerges hrest

theorem Rep.drainMerges (h : Rep p own) (hm : m ∈ Pmm.drainMerges cpu k n p) : m.From (p, own) := by
  induction n generalizing p own with
  | zero => cases hm
  | succ n ih =>
    rw [Pmm.drainMerges] at hm
    split at hm
    · next b p1 hpop =>
      obtain ⟨own1, hquiet1, htaken⟩ := h.quiet_percpuPopRaw hpop
      rcases mem_cons.mp hm with rfl | hm
      · obtain ⟨hloose, hsteps⟩ := hquiet1.rep.loosenHeld htaken.self
        exact ⟨_, hloose, Owners.assign_self, hquiet1.steps.trans hsteps.steps⟩
      · obtain ⟨own2, hlisted2, -⟩ := hquiet1.rep.freeHeld htaken.self
        exact (ih hlisted2.rep hm).after (hquiet1.steps.trans hlisted2.steps.steps)
    · cases hm

theorem Rep.slotMerges (h : Rep p own) {slots : List (Nat × Nat)} (hm : m ∈ Pmm.slotMerges slots p) :
    m.From (p, own) := by
  induction slots generalizing p own with
  | nil => cases hm
  | cons slot slots ih =>
    rw [Pmm.slotMerges] at hm
    rcases mem_append.mp hm with hm | hm
    · exact h.drainMerges hm
    · obtain ⟨own1, hquiet1, -⟩ := h.drainCache slot.1 slot.2 p.totalFrames
      exact (ih hquiet1.rep hm).after hquiet1.steps

theorem Inv.allocateMerges (h : Inv p own) (hm : m ∈ p.allocateMerges rawCpu k) :
    m.From (p, own) := by
  unfold Pmm.allocateMerges at hm
  split at hm
  · cases hm
  · next hk =>
    have hk : k < MAX_ORDER := by omega
    simp only [] at hm
    obtain ⟨h0, hsteps0⟩ := h.counters ((p.allocCalls + 1) % 2 ^ 64) p.compactLastAllocCall
    generalize { p with allocCalls := (p.allocCalls + 1) % 2 ^ 64 } = q at h0 hsteps0 hm
    refine Merge.From.after ?_ hsteps0
    rcases mem_append.mp hm with hsearch | hrest
    · exact h0.findMerges hk hsearch
    split at hrest
    · cases hrest
    · next p1 hfind =>
      obtain rfl := findBlock_none hfind
      split at hrest
      · obtain ⟨h1, hsteps1⟩ := h0.counters p1.allocCalls p1.allocCalls
        refine Merge.From.after ?_ hsteps1
        rcases mem_append.mp hrest with hdrain | hretry
        · exact h1.toRep.slotMerges hdrain
        · obtain ⟨own2, hquiet2, -⟩ := h1.toRep.compact
          exact ((h1.quiet hquiet2).globalMerges hretry).after hquiet2.steps
      · cases hrest

theorem Inv.deallocateMerges (h : Inv p own) {rawCpu b : Nat} (hb : own b = some (.block b k .held))
    (hm : m ∈ p.deallocateMerges rawCpu b) : m.From (p, own) := by
  obtain ⟨horder, -⟩ := h.tag hb (by simp)
  unfold Pmm.deallocateMerges at hm
  split at hm
  · cases hm
  split at hm
  · cases hm
  split at hm
  · cases hm
  rw [horder] at hm
  simp only [] at hm
  split at hm
  · cases hm
  · obtain ⟨own1, hquiet1, -⟩ := h.toRep.quiet_percpuPushRaw (currentCpuId rawCpu) hb
    exact (hquiet1.rep.drainMerges hm).after hquiet1.steps

/-! ## Runs -/

/-- The metadata blocks that `init` allocates. -/
def initMetadata (mmap : List MemmapEntry) : Nat → Bool :=
  match recordRegions mmap with
  | .ok st => st.metadata
  | .error _ => fun _ => false

/-- For every aligned block of recorded frames, the first frame of its buddy lies behind the end of
memory or in a metadata block that exists. -/
def BuddiesMapped (mmap : List MemmapEntry) : Prop :=
  ∀ k < MAX_ORDER - 1, ∀ b, 2 ^ k ∣ b → (∀ x, b ≤ x ∧ x < b + 2 ^ k → Recorded mmap x) →
    (initConfig mmap).totalFrames ≤ b ^^^ 2 ^ k ∨
      initMetadata mmap ((b ^^^ 2 ^ k) / framesPerBlock) = true

/-- The calls of `free_and_merge` made in a call of a client that frees only what it holds. -/
inductive ClientMerge (p : Pmm) (held : List (Nat × Nat)) (m : Merge) : Prop
  | alloc {cpu order : Nat} (hm : m ∈ p.allocateMerges cpu order)
  | free {cpu order pfn : Nat} (hheld : (pfn, order) ∈ held) (hm : m ∈ p.deallocateMerges cpu pfn)
  | compact (hm : m ∈ p.compactMerges)

section Runs

variable {mmap : List MemmapEntry} {p : Pmm} {held : List (Nat × Nat)} {m : Merge}

theorem ClientMerge.from (h : ClientMerge p held m)
    (hledger : Ledger recorded p held own) : m.From (p, own) := by
  cases h with
  | alloc hm => exact hledger.inv.allocateMerges hm
  | free hheld hm =>
    have hout : Place.held.Out := trivial
    exact hledger.inv.deallocateMerges ((hledger.out hout).mpr ⟨rfl, hheld⟩) hm
  | compact hm => exact hledger.inv.toRep.slotMerges hm

/-- If the buddies have metadata, then at every point of every run all that a call of
`free_and_merge` touches lies in metadata blocks that `init` has allocated. -/
theorem PmmRun.merges_mapped (hmap : MemmapOk mmap) (hbuddies : BuddiesMapped mmap)
    (hrun : PmmRun mmap p held) (hm : ClientMerge p held m) :
    ∀ x ∈ m.touched, initMetadata mmap (x / framesPerBlock) = true := by
  intro x hx
  obtain ⟨st, own, hrecord, hledger, hsteps⟩ := hrun.history hmap
  obtain ⟨own', hrep, hb, hlast⟩ := hm.from hledger
  have hinit := (recordRegions_good hmap hrecord).inv.toRep
  have hall : Steps (ofRegions (initConfig mmap) st, recordedOwners st.recorded) (m.state, own') :=
    hsteps.trans hlast
  have hsame := hall.sameFrames hinit
  have hmeta : initMetadata mmap = st.metadata := by rw [initMetadata, hrecord]
  have hregions : recordedRegions mmap = st.recorded := by rw [recordedRegions, hrecord]
  have hbuddied : Buddied (ofRegions (initConfig mmap) st) (recordedOwners st.recorded) := by
    intro b k hk hal hmanaged hlt
    have hblock : ∀ x, b ≤ x ∧ x < b + 2 ^ k → Recorded mmap x := by
      intro x hx
      have hx := hmanaged x hx
      rw [Recorded, hregions]
      simpa [recordedOwners] using hx
    have hmapped := (hbuddies k hk b hal hblock).resolve_left (Nat.not_le.mpr hlt)
    rw [hmeta] at hmapped
    exact hmapped
  have htouched := hrep.touched (hbuddied.of_same hsame) hb hx
  rw [hsame.metadata] at htouched
  rw [hmeta]
  exact htouched

end Runs

/-! ### A map without holes -/

theorem smallMap_tables : recordedRegions smallMap = [⟨263, 320⟩] ∧ initMetadata smallMap 2 = true ∧
    initMetadata smallMap 3 = true := by
  refine ⟨?_, ?_, ?_⟩ <;> decide +kernel

theorem smallMap_buddiesMapped : BuddiesMapped smallMap := by
  intro k hk b hal hblock
  obtain ⟨hregions, htwo, hthree⟩ := smallMap_tables
  have hrecorded {x : Nat} (hx : b ≤ x ∧ x < b + 2 ^ k) : 263 ≤ x ∧ x < 320 := by
    have hin := hblock x hx
    rw [Recorded, hregions] at hin
    simpa using hin
  have hfirst := hrecorded (x := b) (by omega)
  have hlast := hrecorded (x := b + 2 ^ k - 1) (by omega)
  -- The region has 57 frames, so that the block has at most 32.
  have hsmall : k < 6 := by
    by_contra hge
    have := Nat.pow_le_pow_right (show 0 < 2 by decide) (Nat.le_of_not_lt hge)
    omega
  have hbuddy : ∀ k < 6, ∀ b < 320, 263 ≤ b → 2 ^ k ∣ b →
      (b ^^^ 2 ^ k) / framesPerBlock = 2 ∨ (b ^^^ 2 ^ k) / framesPerBlock = 3 := by
    decide +kernel
  right
  rcases hbuddy k hsmall b hfirst.2 hfirst.1 hal with heq | heq
  · rw [heq]
    exact htwo
  · rw [heq]
    exact hthree

/-- Compaction after a first allocation of four pages. -/
theorem merges_mapped_smallMap : ∃ p m, PmmRun smallMap p [(296, 2)] ∧ ClientMerge p [(296, 2)] m ∧
    m.touched ≠ [] ∧ ∀ x ∈ m.touched, initMetadata smallMap (x / framesPerBlock) = true := by
  obtain ⟨p, hinit, hresult, hmerge⟩ := exists_init smallMap (fun p => (p.allocate 0 2).1 = .frame 296 ∧
    ((p.allocate 0 2).2.compactMerges.head?.map fun m => m.touched.isEmpty) = some false)
    (by decide +kernel)
  obtain ⟨m, hhead, htouched⟩ := Option.map_eq_some_iff.mp hmerge
  have hrun : PmmRun smallMap (p.allocate 0 2).2 [(296, 2)] := .alloc (.init hinit) (Prod.ext hresult rfl)
  have hclient : ClientMerge (p.allocate 0 2).2 [(296, 2)] m := .compact (mem_of_head? hhead)
  refine ⟨_, m, hrun, hclient, ?_, PmmRun.merges_mapped smallMap_ok smallMap_buddiesMapped hrun hclient⟩
  intro hnil
  rw [hnil] at htouched
  cases htouched

/-! ### A map with a hole -/

/-- Frames 256 to 296, which are just enough for the tables and the reserve, and 510 to 519. -/
def holeMap : List MemmapEntry :=
  [⟨256 * 4096, 41 * 4096, true, by decide⟩, ⟨510 * 4096, 10 * 4096, true, by decide⟩]

theorem holeMap_ok : MemmapOk holeMap where
  aligned := by simp [holeMap, MemmapEntry.PageAligned]
  apart := by simp [holeMap, MemmapEntry.Apart]

/-- A block of two pages is taken, freed and then drained from the cache.  Its buddy is frame 508,
which lies in the hole and has no metadata, as a metadata block describes 102 frames. -/
theorem merge_touches_hole : MemmapOk holeMap ∧ ∃ p m, PmmRun holeMap p [] ∧ ClientMerge p [] m ∧
    508 ∈ m.touched ∧ 508 < p.totalFrames ∧ initMetadata holeMap (508 / framesPerBlock) = false := by
  refine ⟨holeMap_ok, ?_⟩
  obtain ⟨p, hinit, hresult, hmerge, htotal⟩ := exists_init holeMap (fun p =>
    (p.allocate 0 1).1 = .frame 510 ∧
      (((p.allocate 0 1).2.deallocate 0 510).compactMerges.head?.map fun m => decide (508 ∈ m.touched)) =
        some true ∧ 508 < ((p.allocate 0 1).2.deallocate 0 510).totalFrames) (by decide +kernel)
  have hnull : initMetadata holeMap (508 / framesPerBlock) = false := by decide +kernel
  obtain ⟨m, hhead, htouched⟩ := Option.map_eq_some_iff.mp hmerge
  have hheld : (510, 1) ∈ [(510, 1)] := mem_cons_self
  have hrun : PmmRun holeMap ((p.allocate 0 1).2.deallocate 0 510) [] :=
    .free (.alloc (.init hinit) (Prod.ext hresult rfl)) hheld
  exact ⟨_, m, hrun, .compact (mem_of_head? hhead), of_decide_eq_true htouched, htotal, hnull⟩

end Pmm

end BoruixKernel
