import BoruixKernel.Pmm.Complete
import BoruixKernel.Pmm.InvalidFree
import BoruixKernel.Pmm.Meminfo

/-!
# Requests for large blocks

A request that fails compacts memory only if no block that is large enough is free, where the
blocks in the caches count as free (`max_free_order`).  But a CPU takes blocks from its own cache
only.  If the only blocks left are in other caches, or in its own one with a larger order, the
request fails and they stay where they are.  If it does compact memory, all caches are empty
afterwards (`Counted.compact_empties`), and the second search is complete.
-/

namespace BoruixKernel

open LinkedList List

/-- A larger block contains one of the order. -/
theorem UninitRegion.HasBlock.mono {r : UninitRegion} {o order : Nat} (h : r.HasBlock o) (hle : order ≤ o) :
    r.HasBlock order := by
  obtain ⟨b, hdvd, hstart, hend⟩ := h
  have hpow := Nat.pow_dvd_pow 2 hle
  have hsize := Nat.pow_le_pow_right (show 0 < 2 by decide) hle
  exact ⟨b, hpow.trans hdvd, hstart, by omega⟩

namespace Pmm

/-- No free block of the order or of a larger one is left in a free list, in the cache of a CPU or
in a region. -/
structure NoneLeft (p : Pmm) (order : Nat) : Prop where
  lists : ∀ o, order ≤ o → o < MAX_ORDER → ∀ shard < SHARD_COUNT, p.lists o shard = none
  caches : ∀ cpu < MAX_CPUS, ∀ o, order ≤ o → o < MAX_ORDER → (p.caches cpu).heads o = none
  regions : ∀ r, some r ∈ p.regions → ∀ o, order ≤ o → ¬ r.HasBlock o

section Compaction

variable {p : Pmm}

theorem le_find?_reverse_range (ho : o < n) (hq : q o = true) :
    o ≤ ((List.range n).reverse.find? q).getD 0 := by
  induction n with
  | zero => exact absurd ho (Nat.not_lt_zero o)
  | succ n ih =>
    rw [range_succ, reverse_append, reverse_singleton, singleton_append,
      find?_cons]
    split
    · exact Nat.le_of_lt_succ ho
    · next hn =>
      refine ih (Nat.lt_of_le_of_ne (Nat.le_of_lt_succ ho) ?_)
      rintro rfl
      rw [hq] at hn
      cases hn

/-- There is no block above the largest order. -/
theorem freeBlocks_eq_zero (hgt : p.maxFreeOrder < o) (ho : o < MAX_ORDER) :
    p.freeBlocks o = 0 := by
  by_contra hne
  have hle := le_find?_reverse_range (q := fun order => decide (0 < p.freeBlocks order)) ho
    (decide_eq_true (Nat.pos_of_ne_zero hne))
  exact Nat.not_le.mpr hgt hle

theorem counts_eq_zero_of_freeBlocks (hzero : p.freeBlocks o = 0) (hcpu : cpu < MAX_CPUS) :
    (p.caches cpu).counts o = 0 := by
  have hsum := (Nat.add_eq_zero_iff.mp hzero).2
  rw [List.sum_eq_zero_iff_forall_eq_nat] at hsum
  exact hsum _ (mem_map_of_mem (mem_range.mpr hcpu))

theorem Counted.head_eq_none (hc : Counted p) (h : Rep p own) (cpu o : Nat) :
    (p.caches cpu).heads o = none ↔ (p.caches cpu).counts o = 0 := by
  obtain ⟨l, hl, -⟩ := h.cache cpu o
  have hlength := hc.length cpu o l hl
  constructor
  · intro hnone
    have hnil : l = [] := hl.unique hnone
    rw [hlength, hnil, length_nil]
  · intro hzero
    rw [hzero, eq_comm, length_eq_zero_iff] at hlength
    rw [hlength] at hl
    exact hl

/-- Emptying some caches empties them, and puts nothing in the others. -/
theorem Counted.drainSlots (slots : List (Nat × Nat)) (hslots : ∀ slot ∈ slots, slot.1 < MAX_CPUS)
    (hc : Counted p) (h : Rep p own) :
    let p' := slots.foldl (fun p (cpu, order) => Pmm.drainCache cpu order p.totalFrames p) p
    Counted p' ∧ (∃ own', Rep p' own') ∧
      ∀ c o, (p'.caches c).counts o = if (c, o) ∈ slots then 0 else (p.caches c).counts o := by
  induction slots generalizing p own with
  | nil => exact ⟨hc, ⟨own, h⟩, fun c o => by simp⟩
  | cons slot slots ih =>
    obtain ⟨cpu, order⟩ := slot
    obtain ⟨own1, hquiet1, -⟩ := h.drainCache cpu order p.totalFrames
    obtain ⟨hc1, hcounts1⟩ := hc.drainCache h cpu order p.totalFrames
    obtain ⟨hc2, hrep2, hcounts2⟩ := ih (fun slot hslot => hslots slot (mem_cons_of_mem _ hslot))
      hc1 hquiet1.rep
    refine ⟨hc2, hrep2, fun c o => ?_⟩
    have hcpu : cpu % MAX_CPUS = cpu := Nat.mod_eq_of_lt (hslots _ mem_cons_self)
    have hempty : ((Pmm.drainCache cpu order p.totalFrames p).caches (cpu % MAX_CPUS)).heads order = none :=
      h.drainCache_totalFrames
    have hzero := (hc1.head_eq_none hquiet1.rep _ _).mp hempty
    rw [hcpu] at hzero hcounts1
    rw [foldl_cons, hcounts2]
    by_cases hmem : (c, o) ∈ slots
    · rw [if_pos hmem, if_pos (mem_cons_of_mem _ hmem)]
    · rw [if_neg hmem]
      by_cases hself : (c, o) = (cpu, order)
      · cases hself
        rw [hzero, if_pos mem_cons_self]
      · rw [if_neg fun hin => (mem_cons.mp hin).elim hself hmem, hcounts1, if_neg]
        rintro ⟨rfl, rfl⟩
        exact hself rfl

theorem mem_cacheSlots : (cpu, order) ∈ cacheSlots ↔ cpu < MAX_CPUS ∧ order < MAX_ORDER := by
  unfold cacheSlots
  simp only [mem_flatMap, mem_map, mem_range, Prod.mk.injEq]
  constructor
  · rintro ⟨c, hc, o, ho, rfl, rfl⟩
    exact ⟨hc, ho⟩
  · rintro ⟨hc, ho⟩
    exact ⟨cpu, hc, order, ho, rfl, rfl⟩

/-- After a compaction all caches are empty. -/
theorem Counted.compact_empties (hc : Counted p) (h : Rep p own) {cpu o : Nat} (hcpu : cpu < MAX_CPUS)
    (ho : o < MAX_ORDER) : (p.compact.caches cpu).heads o = none := by
  have hslots := @mem_cacheSlots
  have hcompact : p.compact =
      cacheSlots.foldl (fun p (cpu, order) => Pmm.drainCache cpu order p.totalFrames p) p := rfl
  rw [hcompact]
  -- The list of all caches is long, and nothing but its members matters here.
  generalize cacheSlots = slots at hslots ⊢
  obtain ⟨hc', ⟨own', h'⟩, hcounts⟩ := hc.drainSlots slots (fun slot hslot => (hslots.mp hslot).1) h
  refine (hc'.head_eq_none h' cpu o).mpr ?_
  rw [hcounts, if_pos (hslots.mpr ⟨hcpu, ho⟩)]

end Compaction

/-! ## Calls -/

section Calls

variable {p p' : Pmm}

/-- What is needed for a call to fail without compacting memory. -/
theorem allocate_eq_none (horder : order < MAX_ORDER) (hnothing : p.NothingFor (currentCpuId rawCpu) order)
    (hcompact : ¬ p.Compacts rawCpu order) : p.allocate rawCpu order = (.none, p.countCall) := by
  have hnone := (findBlock_eq_none horder).mpr (nothingFor_countCall.mpr hnothing)
  have hfind : p.countCall.findBlock order (currentCpuId rawCpu) = (none, p.countCall) :=
    Prod.ext hnone (findBlock_none (Prod.ext hnone rfl))
  rw [allocate_eq horder, hfind]
  simp only []
  rw [if_neg]
  rintro ⟨hhigh, hinterval, hfragmented⟩
  exact hcompact ⟨horder, hnone, hhigh, hinterval, hfragmented⟩

/-- A call that compacts memory has seen no block of the order in any cache. -/
theorem Compacts.caches (h : p.Compacts rawCpu order) (hc : Counted p) (hrep : Rep p own) {cpu o : Nat}
    (hcpu : cpu < MAX_CPUS) (hle : order ≤ o) (ho : o < MAX_ORDER) : (p.caches cpu).heads o = none := by
  have hzero := freeBlocks_eq_zero (Nat.lt_of_lt_of_le h.fragmented hle) ho
  exact (hc.head_eq_none hrep cpu o).mpr (counts_eq_zero_of_freeBlocks (p := p.countCall) hzero hcpu)

/-- A failed call leaves no block behind exactly if the caches have none, whenever the CPU finds
nothing where it looks. -/
theorem Rep.noneLeft_iff (h : Rep p own) (hc : Counted p) (horder : order < MAX_ORDER) :
    (∀ p', p.allocate rawCpu order = (.none, p') → p'.NoneLeft order) ↔
      (p.NothingFor (currentCpuId rawCpu) order →
        ∀ cpu < MAX_CPUS, ∀ o, order ≤ o → o < MAX_ORDER → (p.caches cpu).heads o = none) := by
  constructor
  · intro hleft hnothing cpu hcpu o hle ho
    by_cases hcompact : p.Compacts rawCpu order
    · exact hcompact.caches hc h hcpu hle ho
    · exact (hleft _ (allocate_eq_none horder hnothing hcompact)).caches cpu hcpu o hle ho
  · intro hcaches p' halloc
    obtain ⟨hnothing, hcases⟩ := allocate_none_cases horder halloc
    rcases hcases with ⟨-, rfl⟩ | ⟨-, hempty, rfl⟩
    · exact ⟨hnothing.lists, hcaches hnothing, fun r hr o hle hblock =>
        hnothing.regions r hr (hblock.mono hle)⟩
    · have hrep1 : Rep { p.countCall with compactLastAllocCall := p.countCall.allocCalls } own :=
        h.congr rfl rfl rfl rfl rfl rfl
      have hc1 : Counted { p.countCall with compactLastAllocCall := p.countCall.allocCalls } := ⟨hc.length⟩
      exact ⟨hempty.lists, fun cpu hcpu o _ ho => hc1.compact_empties hrep1 hcpu ho, fun r hr o hle hblock =>
        hempty.regions r hr (hblock.mono hle)⟩

end Calls

/-- At every point of a run, a request for a large block that fails leaves no block of that order
or of a larger one in any list, cache or region, exactly if the following holds before the call: if
some cache has such a block, then there is one where the CPU looks for it. -/
theorem FreeRun.failed_leaves_none_iff {mmap : List MemmapEntry} {p : Pmm} {held : List (Nat × Nat)}
    (hmap : MemmapOk mmap) (hrun : FreeRun mmap p held) {order : Nat} (horder : order < MAX_ORDER)
    (rawCpu : Nat) :
    (∀ p', p.allocate rawCpu order = (.none, p') → p'.NoneLeft order) ↔
      ((∃ cpu < MAX_CPUS, ∃ o, order ≤ o ∧ o < MAX_ORDER ∧ (p.caches cpu).heads o ≠ none) →
        ¬ p.NothingFor (currentCpuId rawCpu) order) := by
  obtain ⟨own, h⟩ := (hrun.pmmRun hmap).ledger hmap
  rw [h.inv.toRep.noneLeft_iff ((hrun.pmmRun hmap).counted hmap).toCounted horder]
  constructor
  · rintro hcaches ⟨cpu, hcpu, o, hle, ho, hsome⟩ hnothing
    exact hsome (hcaches hnothing cpu hcpu o hle ho)
  · intro hfound hnothing cpu hcpu o hle ho
    by_contra hsome
    exact hfound ⟨cpu, hcpu, o, hle, ho, hsome⟩ hnothing

theorem failed_leaves_none_smallMap : ∃ p, FreeRun smallMap p [] ∧ (p.allocate 0 18).1 = .none ∧
    (p.allocate 0 18).2.NoneLeft 18 := by
  obtain ⟨p, hinit, hnone, hempty⟩ := exists_init smallMap (fun p => (p.allocate 0 18).1 = .none ∧
    ∀ cpu < MAX_CPUS, (p.caches cpu).heads 18 = none) (by decide +kernel)
  refine ⟨p, .init hinit, hnone, (FreeRun.failed_leaves_none_iff smallMap_ok (.init hinit) (by decide) 0).mpr
    ?_ _ (Prod.ext hnone rfl)⟩
  rintro ⟨cpu, hcpu, o, hle, ho, hsome⟩ -
  obtain rfl : o = 18 := Nat.le_antisymm (Nat.le_of_lt_succ ho) hle
  exact hsome (hempty cpu hcpu)

/-! ## A run in which blocks stay in a cache -/

/-- The allocator with other numbers of calls. -/
def withCounters (p : Pmm) (calls last : Nat) : Pmm :=
  { p with allocCalls := calls, compactLastAllocCall := last }

section WithCounters

variable {p : Pmm}

theorem countCall_withCounters (p : Pmm) (c l : Nat) :
    (p.withCounters c l).countCall = p.withCounters ((c + 1) % 2 ^ 64) l := rfl

theorem listLength_withCounters (p : Pmm) (c l fuel : Nat) (head : Option Nat) :
    (p.withCounters c l).listLength fuel head = p.listLength fuel head := by
  induction fuel generalizing head with
  | zero => rfl
  | succ fuel ih =>
    cases head with
    | none => rfl
    | some pfn => exact congrArg (· + 1) (ih _)

/-- The largest order does not depend on them, -/
theorem maxFreeOrder_withCounters (p : Pmm) (c l : Nat) :
    (p.withCounters c l).maxFreeOrder = p.maxFreeOrder := by
  have hblocks : (p.withCounters c l).freeBlocks = p.freeBlocks := by
    funext o
    unfold freeBlocks
    simp only [listLength_withCounters]
    rfl
  rw [maxFreeOrder, maxFreeOrder, hblocks]

/-- and neither does the search. -/
theorem NothingFor.withCounters (h : p.NothingFor cpu order) (c l : Nat) :
    (p.withCounters c l).NothingFor cpu order := ⟨⟨h.lists, h.regions⟩, h.cache, h.reserve⟩

/-- A request that fails while a large block is free only counts itself. -/
theorem allocate_withCounters (horder : order < MAX_ORDER)
    (hnothing : p.NothingFor (currentCpuId rawCpu) order) (hfree : order ≤ p.maxFreeOrder) (c l : Nat) :
    (p.withCounters c l).allocate rawCpu order = (.none, p.withCounters ((c + 1) % 2 ^ 64) l) := by
  refine allocate_eq_none horder (hnothing.withCounters c l) fun hcompact => ?_
  have hlarge := hcompact.fragmented
  rw [countCall_withCounters, maxFreeOrder_withCounters] at hlarge
  exact Nat.not_le.mpr hlarge hfree

theorem FreeRun.failures (hrun : FreeRun mmap p held) (horder : order < MAX_ORDER)
    (hnothing : p.NothingFor (currentCpuId rawCpu) order) (hfree : order ≤ p.maxFreeOrder) (n : Nat)
    (hsmall : p.allocCalls + n < 2 ^ 64) :
    FreeRun mmap (p.withCounters (p.allocCalls + n) p.compactLastAllocCall) held := by
  induction n with
  | zero => exact hrun
  | succ n ih =>
    have hcall := allocate_withCounters horder hnothing hfree (p.allocCalls + n) p.compactLastAllocCall
    rw [Nat.add_assoc, Nat.mod_eq_of_lt hsmall] at hcall
    exact .fail (ih (Nat.lt_of_succ_lt hsmall)) hcall

end WithCounters

/-- CPU 0 takes a block of four pages, and the five other ones go to its cache.  CPU 1 then asks for
such a block more than 1024 times.  No call finds one, none compacts memory, and the blocks stay. -/
theorem failed_leaves_cached : ∃ p, FreeRun smallMap p [(296, 2)] ∧
    1024 ≤ p.allocCalls - p.compactLastAllocCall ∧ (p.allocate 1 2).1 = .none ∧
    ((p.allocate 1 2).2.caches 0).heads 2 = some 316 := by
  obtain ⟨p, hinit, hframe, hq⟩ := exists_init smallMap (fun p => (p.allocate 0 2).1 = .frame 296 ∧
    let q := (p.allocate 0 2).2
    (q.findBlock 2 1).1 = none ∧ q.maxFreeOrder = 2 ∧ (q.caches 0).heads 2 = some 316 ∧
      q.allocCalls = 1 ∧ q.compactLastAllocCall = 0) (by decide +kernel)
  have hrun : FreeRun smallMap (p.allocate 0 2).2 [(296, 2)] :=
    .alloc (.init hinit) (Prod.ext hframe rfl)
  generalize (p.allocate 0 2).2 = q at hq hrun
  obtain ⟨hfind, hmax, hhead, hcalls, hlast⟩ := hq
  have horder : 2 < MAX_ORDER := by decide
  have hnothing : q.NothingFor (currentCpuId 1) 2 := (findBlock_eq_none horder).mp hfind
  have hrun' := hrun.failures horder hnothing hmax.ge 1024 (by rw [hcalls]; decide)
  have hcall := allocate_withCounters horder hnothing hmax.ge (q.allocCalls + 1024) q.compactLastAllocCall
  refine ⟨_, hrun', ?_, congrArg Prod.fst hcall, ?_⟩
  · show 1024 ≤ q.allocCalls + 1024 - q.compactLastAllocCall
    omega
  · rw [hcall]
    exact hhead

end Pmm

end BoruixKernel
