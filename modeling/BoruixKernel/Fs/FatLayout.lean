import BoruixKernel.Fs.FatChain
import BoruixKernel.Fs.Fatfs

/-!
# The geometry of a volume

`build_state` takes the numbers of a boot sector as they are: only three of them must not be
zero.  The state is consistent exactly if the numbers fit together (`layout_consistent_iff`).
Where they do not, the subtraction that gives the number of clusters may wrap around.
-/

namespace BoruixKernel

open DeviceProg

namespace FatFsState

variable {st : FatFsState}

/-- The parts of the volume lie inside its sectors, and the numbers that describe them are those
of the integers. -/
structure Consistent (st : FatFsState) : Prop where
  clusterCount : (st.clusterCount : Int) =
    (st.bpb.totalSectors - (st.bpb.reservedSectors + st.bpb.numFats * st.bpb.fatSizeSectors)) /
      st.bpb.sectorsPerCluster
  copies : 0 < st.bpb.numFats
  tables : st.fatOffset + st.bpb.numFats * st.fatSize ≤ st.bpb.totalSectors * st.bpb.bytesPerSector
  clusters : ∀ c, st.IsCluster c →
    st.base c + st.clusterSize ≤ st.bpb.totalSectors * st.bpb.bytesPerSector
  entries : ∀ c, st.IsCluster c → st.InTable c
  root : st.IsCluster st.bpb.rootCluster

/-- A number of calls of `allocate_cluster`. -/
def allocations (st : FatFsState) : Nat → FatProg (List Nat)
  | 0 => pure []
  | n + 1 => do
    let c ← st.allocateCluster
    let cs ← allocations st n
    pure (c :: cs)

/-- The clusters that are allocated were free before. -/
theorem allocations_spec (hl : st.Layout)
    (hrun : exec (Disk.device VfsError) (st.allocations n) d = some (.ok cs, d')) :
    cs.Nodup ∧ ∀ c ∈ cs, st.IsCluster c ∧ st.fat d c = 0 := by
  induction n generalizing d cs with
  | zero =>
    cases hrun
    exact ⟨.nil, fun _ h => absurd h List.not_mem_nil⟩
  | succ n ih =>
    rw [allocations, exec_bind] at hrun
    rcases exec_allocateCluster (d := d) hl with ⟨c, d1, halloc, htaken⟩ | ⟨hnone, -⟩
    rotate_left
    · rw [hnone] at hrun
      cases hrun
    rw [halloc, Outcome.andThen_ok, exec_bind] at hrun
    rcases hrest : exec (Disk.device VfsError) (st.allocations n) d1 with _ | ⟨_ | cs', d2⟩ <;>
      rw [hrest] at hrun <;> cases hrun
    obtain ⟨hnodup, hfree⟩ := ih hrest
    -- The first one is taken when the others are found.
    have hne : ∀ x ∈ cs', x ≠ c := by
      rintro x hx rfl
      have hzero := (hfree x hx).2
      rw [htaken.fat hl htaken.cluster, if_pos rfl] at hzero
      cases hzero
    refine ⟨List.nodup_cons.mpr ⟨fun hc => hne c hc rfl, hnodup⟩, List.forall_mem_cons.mpr
      ⟨⟨htaken.cluster, htaken.free⟩, fun x hx => ⟨(hfree x hx).1, ?_⟩⟩⟩
    rw [← (hfree x hx).2, htaken.fat hl (hfree x hx).1, if_neg (hne x hx)]

end FatFsState

namespace FatBpb

variable {bpb : FatBpb}

/-- The sectors before the clusters. -/
def systemSectors (bpb : FatBpb) : Nat := bpb.reservedSectors + bpb.numFats * bpb.fatSizeSectors

/-- The numbers of a boot sector fit together. -/
structure Fits (bpb : FatBpb) : Prop where
  copies : bpb.numFats ≠ 0
  total : bpb.systemSectors ≤ bpb.totalSectors
  entries : 4 * ((bpb.totalSectors - bpb.systemSectors) / bpb.sectorsPerCluster + 2) ≤
    bpb.fatSizeSectors * bpb.bytesPerSector
  root : 2 ≤ bpb.rootCluster ∧
    bpb.rootCluster < (bpb.totalSectors - bpb.systemSectors) / bpb.sectorsPerCluster + 2

/-- What `parse_bpb` and `build_state` check. -/
structure Accepted (bpb : FatBpb) : Prop where
  bytesPerSector : 0 < bpb.bytesPerSector
  sectorsPerCluster : 0 < bpb.sectorsPerCluster
  rootEntryCount : bpb.rootEntryCount = 0
  totalSectors : bpb.totalSectors < 2 ^ 32

theorem sectorField_lt (sector : List UInt8) (off len : Nat) : sectorField sector off len < 256 ^ len :=
  (Bytes.toNat_lt _).trans_le (Nat.pow_le_pow_right (by omega) (List.length_take_le len _))

theorem accepted_of_parseBpb (hparse : parseBpb sector = some bpb)
    (hroot : bpb.rootEntryCount = 0) : bpb.Accepted := by
  simp only [parseBpb, Option.ite_none_left_eq_some, Option.some.injEq] at hparse
  obtain ⟨-, hpos, rfl⟩ := hparse
  rw [not_or] at hpos
  refine ⟨Nat.pos_of_ne_zero hpos.1, Nat.pos_of_ne_zero (not_or.mp hpos.2).1, hroot, ?_⟩
  have h16 := sectorField_lt sector 19 2
  have h32 := sectorField_lt sector 32 4
  dsimp only
  split <;> omega

section

variable (h : bpb.Accepted)

include h

theorem Accepted.dataOffset : (bpb.layout dev).dataOffset = bpb.systemSectors * bpb.bytesPerSector := by
  have hzero : (0 * 32 + (bpb.bytesPerSector - 1)) / bpb.bytesPerSector = 0 :=
    Nat.div_eq_of_lt (by have := h.bytesPerSector; omega)
  rw [layout, h.rootEntryCount, hzero]
  rfl

theorem Accepted.clusterCount (hle : bpb.systemSectors ≤ bpb.totalSectors) :
    (bpb.layout dev).clusterCount =
      (bpb.totalSectors - bpb.systemSectors) / bpb.sectorsPerCluster := by
  have hzero : (0 * 32 + (bpb.bytesPerSector - 1)) / bpb.bytesPerSector = 0 :=
    Nat.div_eq_of_lt (by have := h.bytesPerSector; omega)
  have htotal := h.totalSectors
  have hwrap : (bpb.totalSectors + (2 ^ 32 - (bpb.systemSectors + 0) % 2 ^ 32)) % 2 ^ 32 =
      bpb.totalSectors - bpb.systemSectors := by
    omega
  rw [layout, h.rootEntryCount, hzero]
  exact congrArg (· / bpb.sectorsPerCluster) hwrap

/-- The numbers of the layout, where nothing wraps around. -/
theorem Accepted.layout (hfits : bpb.Fits) : (bpb.layout dev).Layout where
  copies := Nat.pos_of_ne_zero hfits.copies
  covers := by
    rw [h.clusterCount hfits.total]
    exact hfits.entries
  below := by
    rw [h.dataOffset, systemSectors, Nat.add_mul, Nat.mul_assoc]
    exact le_rfl

theorem Accepted.consistent (hfits : bpb.Fits) : (bpb.layout dev).Consistent where
  clusterCount := by
    rw [h.clusterCount hfits.total, Int.natCast_ediv, Int.natCast_sub hfits.total, systemSectors,
      Int.natCast_add, Int.natCast_mul]
    rfl
  copies := Nat.pos_of_ne_zero hfits.copies
  tables := by
    refine (h.layout hfits).below.trans ?_
    rw [h.dataOffset]
    exact Nat.mul_le_mul_right _ hfits.total
  clusters c hc := by
    rw [FatFsState.IsCluster, h.clusterCount hfits.total] at hc
    have hlt : c - 2 + 1 ≤ (bpb.totalSectors - bpb.systemSectors) / bpb.sectorsPerCluster := by
      omega
    have hdata := (Nat.le_div_iff_mul_le h.sectorsPerCluster).mp hlt
    calc (bpb.layout dev).base c + (bpb.layout dev).clusterSize
      _ = (bpb.systemSectors + (c - 2 + 1) * bpb.sectorsPerCluster) * bpb.bytesPerSector := by
        rw [FatFsState.base, h.dataOffset, FatFsState.clusterSize, clusterSize]
        change _ + _ * (bpb.bytesPerSector * bpb.sectorsPerCluster) +
          bpb.bytesPerSector * bpb.sectorsPerCluster = _
        ring
      _ ≤ (bpb.layout dev).bpb.totalSectors * (bpb.layout dev).bpb.bytesPerSector :=
        Nat.mul_le_mul_right _ (by have := hfits.total; change _ ≤ bpb.totalSectors; omega)
  entries c hc := hc.inTable (h.layout hfits)
  root := by
    rw [FatFsState.IsCluster, h.clusterCount hfits.total]
    exact hfits.root

theorem Accepted.fits (hst : (bpb.layout dev).Consistent) : bpb.Fits := by
  have htotal : bpb.systemSectors ≤ bpb.totalSectors := by
    refine Nat.le_of_mul_le_mul_right (le_trans (le_of_eq ?_) hst.tables) h.bytesPerSector
    rw [systemSectors, Nat.add_mul, Nat.mul_assoc]
    rfl
  have hroot := hst.root
  rw [FatFsState.IsCluster, h.clusterCount htotal] at hroot
  -- The last cluster is the one whose entry is the last of the table.
  have hlast := hst.entries ((bpb.layout dev).clusterCount + 1)
    ⟨by have := hst.root; unfold FatFsState.IsCluster at this; omega, Nat.lt_succ_self _⟩
  rw [FatFsState.InTable, h.clusterCount htotal] at hlast
  refine ⟨Nat.ne_of_gt hst.copies, htotal, le_trans (by omega) hlast, hroot⟩

end

end FatBpb

namespace Fatfs

variable {reg : Registry ω} {depth : Nat} {src : Str} {s s' : Vfs ω} {st : FatFsState}

theorem accepted_of_buildState (hrun : buildState reg depth src s = some (.ok st, s')) :
    ∃ (bpb : FatBpb) (dev : NodeId), bpb.Accepted ∧ st = bpb.layout dev := by
  rw [buildState] at hrun
  rcases hopen : replaceError .NotFound (vfsOpen reg depth src s) with _ | ⟨_ | dev, s1⟩ <;>
    rw [hopen] at hrun
  · cases hrun
  · cases hrun
  rw [Outcome.andThen_ok] at hrun
  rcases hread : replaceError .Io (vfsRead reg dev 0 512 s1) with _ | ⟨_ | sector, s2⟩ <;>
    rw [hread] at hrun
  · cases hrun
  · cases hrun
  rw [Outcome.andThen_ok] at hrun
  split at hrun
  · cases hrun
  next bpb hparse =>
    split at hrun
    · cases hrun
    next hroot =>
      cases hrun
      exact ⟨bpb, dev, FatBpb.accepted_of_parseBpb hparse (not_not.mp hroot), rfl⟩

/-- The state that `build_state` makes of a boot sector is consistent, and the clusters that are
allocated then are different clusters of the volume, exactly if the numbers of the sector fit
together. -/
theorem buildState_consistent_iff (hrun : buildState reg depth src s = some (.ok st, s')) :
    (st.Consistent ∧ ∀ n d d' cs,
      exec (Disk.device VfsError) (st.allocations n) d = some (.ok cs, d') →
        cs.Nodup ∧ ∀ c ∈ cs, st.IsCluster c) ↔ st.bpb.Fits := by
  obtain ⟨bpb, dev, h, rfl⟩ := accepted_of_buildState hrun
  refine ⟨fun hst => h.fits hst.1, fun hfits => ⟨h.consistent hfits, fun n d d' cs halloc => ?_⟩⟩
  obtain ⟨hnodup, hfree⟩ := FatFsState.allocations_spec (h.layout hfits) halloc
  exact ⟨hnodup, fun c hc => (hfree c hc).1⟩

/-- A device at the root of the VFS. -/
def rootDevice (sector : List UInt8) : Registry Unit :=
  [⟨[], 0, { VfsOps.defaults with read := fun _ _ _ s => some (.ok sector, s) }⟩]

theorem buildState_rootDevice (hparse : parseBpb (Bytes.fill 512 sector) = some bpb)
    (hroot : bpb.rootEntryCount = 0) :
    buildState (rootDevice sector) 1 ['/'] vfsInit =
      some (.ok (bpb.layout vfsRoot), vfsInit.calling vfsRoot 0) := by
  have hopen : vfsOpen (rootDevice sector) 1 ['/'] vfsInit = some (.ok vfsRoot, vfsInit) := rfl
  have hread : vfsRead (rootDevice sector) vfsRoot 0 512 vfsInit =
    some (.ok sector, vfsInit.calling vfsRoot 0) := rfl
  simp only [buildState, hopen, hread, replaceError, Outcome.andThen_ok, hparse, ne_eq,
    if_neg (not_not.mpr hroot)]

/-- Sectors of 512 bytes: a reserved one, a table of one, and clusters of one with the root as the
first. -/
def smallBpb (totalSectors : Nat) : FatBpb := ⟨512, 1, 1, 1, 0, totalSectors, 1, 2⟩

def smallSector (totalSectors : UInt8) : List UInt8 :=
  List.replicate 12 0 ++ [2, 1, 1, 0, 1, 0, 0, totalSectors, 0, 0, 1] ++ List.replicate 21 0 ++ [2]

/-- Ten sectors, eight of them clusters. -/
theorem buildState_tenSectors : ∃ s', buildState (rootDevice (smallSector 10)) 1 ['/'] vfsInit =
    some (.ok ((smallBpb 10).layout vfsRoot), s') ∧ ((smallBpb 10).layout vfsRoot).Consistent := by
  have hrun := @buildState_rootDevice (smallSector 10) (smallBpb 10) (by decide +kernel) rfl
  exact ⟨_, hrun, ((buildState_consistent_iff hrun).mpr
    ⟨by decide, by decide, by decide, by decide⟩).1⟩

/-- No sectors at all: the number of clusters wraps around. -/
theorem buildState_noSectors : ∃ s', buildState (rootDevice (smallSector 0)) 1 ['/'] vfsInit =
    some (.ok ((smallBpb 0).layout vfsRoot), s') ∧
      ((smallBpb 0).layout vfsRoot).clusterCount = 2 ^ 32 - 2 ∧
        ¬((smallBpb 0).layout vfsRoot).Consistent := by
  have hrun := @buildState_rootDevice (smallSector 0) (smallBpb 0) (by decide +kernel) rfl
  refine ⟨_, hrun, by decide, fun hst => absurd hst.tables (by decide)⟩

end Fatfs

end BoruixKernel
