import BoruixKernel.Pmm.Coverage
import BoruixKernel.Pmm.Complete

/-!
# What a client of the frame allocator may rely on

Facts about whole runs that speak of the calls only.  A block that `allocate` hands out is memory of
the machine that nobody else has, be it another client or the allocator with its tables.  A block
that is given back is there for the next request of its order on the same CPU, since it goes to the
reserve or to the cache of the CPU, and a full cache keeps other blocks when it is cut.  The figures
of `build_meminfo` may be too low, but what is in use is exact.
-/

namespace BoruixKernel

namespace Pmm

open List

variable {mmap : List MemmapEntry} {p p' : Pmm} {held : List (Nat × Nat)} {own : Owners}

/-! ## What is handed out -/

/-- None of the tables is empty. -/
theorem ranges_pos {s : Storage} (h : findMetadataStorage mmap (tableSizes (initConfig mmap)) = .ok s) :
    ∀ r ∈ s.ranges (tableSizes (initConfig mmap)), r.1 < r.2 := by
  have hframes := totalFrames_pos h
  have hlen := Nat.zero_lt_of_lt (block_lt_metadataMapLen hframes)
  have hcap : (initConfig mmap).maxUninitRegions = (mmap.filter (·.usable)).length * 2 + 16 := rfl
  rw [Storage.forall_ranges]
  simp only [tableSizes]
  omega

/-- What `allocate` hands out at a point of a run is aligned, consists of usable memory outside the
tables of the allocator, and shares no frame with a block that is held. -/
theorem PmmRun.allocate_exclusive {s : Storage} (hmap : MemmapOk mmap)
    (hstorage : findMetadataStorage mmap (tableSizes (initConfig mmap)) = .ok s)
    (hrun : PmmRun mmap p held) (halloc : p.allocate cpu order = (.frame pfn, p')) :
    2 ^ order ∣ pfn ∧ ∀ x, pfn ≤ x → x < pfn + 2 ^ order →
      (∃ e ∈ mmap, e.usable ∧ HasFrame e x) ∧
        (∀ r ∈ s.ranges (tableSizes (initConfig mmap)), ¬ Overlaps x r) ∧
        ∀ blk ∈ held, ¬ (blk.1 ≤ x ∧ x < blk.1 + 2 ^ blk.2) := by
  obtain ⟨own, h⟩ := (hrun.alloc halloc).ledger hmap
  have hout : Place.held.Out := trivial
  have hown : ∀ blk ∈ (pfn, order) :: held, own blk.1 = some (.block blk.1 blk.2 .held) :=
    fun blk hblk => (h.out hout).mpr ⟨rfl, hblk⟩
  have hself := hown _ mem_cons_self
  refine ⟨h.inv.whole.aligned hself, fun x hle hlt => ?_⟩
  have hx := h.inv.whole.whole hself ⟨hle, hlt⟩
  have hrec : ∃ r ∈ recordedRegions mmap, r.startPfn ≤ x ∧ x < r.endPfn := by
    have hmanaged := mt (h.managed x).mpr (by simp [hx])
    simpa [recordedOwners] using hmanaged
  have hzero : s.mapPaddr ≠ 0 := by
    intro hzero
    rw [recordedRegions, recordRegions] at hrec
    simp only [hstorage, bind, Except.bind, if_pos hzero] at hrec
    obtain ⟨r, hr, -⟩ := hrec
    cases hr
  obtain ⟨st, hst, hregions⟩ := recordRegions_eq hmap hstorage hzero
  rw [recordedRegions, hst] at hrec
  simp only [hregions] at hrec
  obtain ⟨husable, hapart⟩ := (mem_mapRegions hmap (findMetadataStorage_placed hmap hstorage).1
    (ranges_pos hstorage) x).mp hrec
  refine ⟨husable, hapart, fun blk hblk hin => ?_⟩
  have heq := (h.inv.whole.whole (hown blk (mem_cons_of_mem _ hblk)) hin).symm.trans hx
  simp only [Option.some.injEq, Owner.block.injEq] at heq
  obtain rfl : blk = (pfn, order) := Prod.ext heq.1 heq.2.1
  exact (nodup_cons.mp h.nodup).1 hblk

theorem allocate_exclusive_smallMap : ∃ p s, PmmRun smallMap p [] ∧
    findMetadataStorage smallMap (tableSizes (initConfig smallMap)) = .ok s ∧
    (p.allocate 0 2).1 = .frame 296 ∧ ∀ x, 296 ≤ x → x < 300 →
      ∀ r ∈ s.ranges (tableSizes (initConfig smallMap)), ¬ Overlaps x r := by
  obtain ⟨p, hinit, hframe⟩ := exists_init smallMap (fun p => (p.allocate 0 2).1 = .frame 296)
    (by decide +kernel)
  have hexcl := (PmmRun.init hinit).allocate_exclusive smallMap_ok smallMap_storage (Prod.ext hframe rfl)
  exact ⟨p, _, .init hinit, smallMap_storage, hframe, fun x hle hlt => (hexcl.2 x hle hlt).2.1⟩

/-! ## What is given back -/

/-- A block that was freed leaves its CPU with a block of its order. -/
theorem Inv.deallocate_something (h : Inv p own) (hc : Tallied p) (rawCpu : Nat)
    (hb : own b = some (.block b k .held)) :
    ¬ (p.deallocate rawCpu b).NothingFor (currentCpuId rawCpu) k := by
  intro hnothing
  have hbound := h.bound (x := b) (by simp [hb])
  obtain ⟨horder, hstate⟩ := h.tag hb (by simp)
  have hstate : (p.frames b).state = .Allocated := hstate
  have hhead := hnothing.cache
  have hreserve := hnothing.reserve
  have hzero := (hc.deallocate h rawCpu hb).length _ _ [] hhead
  unfold Pmm.deallocate at hzero hreserve
  rw [if_neg (by omega), hbound.2, if_neg (by simp), hstate, if_neg (by simp), horder] at hzero hreserve
  simp only [] at hzero hreserve
  split at hzero
  · next hroom =>
    rw [if_pos hroom] at hreserve
    cases hreserve hroom.1
  · obtain ⟨own', hquiet, -⟩ := h.toRep.quiet_percpuPushRaw (currentCpuId rawCpu) hb
    have hlimit := hc.limited (currentCpuId rawCpu % MAX_CPUS) k
    have hle := perCpuLimit_le k
    have hbatch := perCpuBatch_le k
    have hpos := perCpuBatch_pos k
    have hc' := hc.toCounted.percpuPushRaw h.toRep (currentCpuId rawCpu) hb (by omega)
    rw [Pmm.percpuPush, (hc'.drainCache hquiet.rep _ k _).2, if_pos ⟨rfl, rfl⟩,
      percpuPushRaw_counts, if_pos ⟨rfl, rfl⟩] at hzero
    simp only [length_nil] at hzero
    omega

/-- At every point of a run, once a block is freed, the next request for its order on the same CPU
finds a block. -/
theorem PmmRun.freed_available (hmap : MemmapOk mmap) (hrun : PmmRun mmap p held)
    (hheld : (pfn, order) ∈ held) (cpu : Nat) :
    ((p.deallocate cpu pfn).allocate cpu order).1 ≠ .none := by
  obtain ⟨own, h⟩ := hrun.ledger hmap
  have hout : Place.held.Out := trivial
  have hb := (h.out hout).mpr ⟨rfl, hheld⟩
  have horder : order < MAX_ORDER := by
    rw [← (h.inv.tag hb (by simp)).1]
    exact h.inv.orders pfn
  intro hnone
  exact h.inv.deallocate_something (hrun.counted hmap) cpu hb
    (allocate_none_cases horder (Prod.ext hnone rfl)).1

theorem freed_available_smallMap : ∃ p, PmmRun smallMap p [(296, 2)] ∧
    ((p.deallocate 5 296).allocate 5 2).1 ≠ .none := by
  obtain ⟨p, hrun⟩ := smallMap_run
  exact ⟨p, hrun, hrun.freed_available smallMap_ok (mem_singleton.mpr rfl) 5⟩

/-! ## What is reported -/

/-- At every point of a run the memory in use is reported exactly, and what is free and what there
is are never overstated. -/
theorem PmmRun.meminfo_safe (hmap : MemmapOk mmap) (hrun : PmmRun mmap p held) :
    p.buildMeminfo.memUsed = heldFrames held * 4 ∧
      p.buildMeminfo.memTotal = p.buildMeminfo.memFree + p.buildMeminfo.memUsed ∧
      p.buildMeminfo.memFree ≤ framesNotHeld mmap held * 4 ∧
      p.buildMeminfo.memTotal ≤ framesRecorded mmap * 4 := by
  obtain ⟨own, h⟩ := hrun.ledger hmap
  obtain ⟨n, hfree, htotal, -⟩ := hrun.unreported hmap
  have hused : p.buildMeminfo.memUsed = p.allocatedFrames * 4 := rfl
  have hsum : p.buildMeminfo.memTotal = p.buildMeminfo.memUsed + p.buildMeminfo.memFree := Nat.add_mul ..
  rw [h.count] at hused
  omega

theorem meminfo_safe_smallMap : ∃ p, PmmRun smallMap p [(296, 2)] ∧ p.buildMeminfo.memUsed = 16 := by
  obtain ⟨p, hrun⟩ := smallMap_run
  exact ⟨p, hrun, (hrun.meminfo_safe smallMap_ok).1⟩

end Pmm

end BoruixKernel
