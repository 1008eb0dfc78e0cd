import BoruixKernel.Pmm.Conservation

/-!
# Where the tables go

`find_metadata_storage` puts all tables in one entry of the memory map, or the pool in one and the
rest in another.  The ranges are aligned, do not overlap and lie in usable memory in every case
(`Storage.Placed`).  That they lie above the first megabyte is checked in the first searches only:
if the entry that is best for the pool is also best for the rest, the search for another one takes
any usable entry (`LowAlternative`).
-/

namespace BoruixKernel

open List

namespace Pmm

/-! ## What is asked for -/

def Storage.ranges (s : Storage) (sizes : TableSizes) : List (Nat × Nat) :=
  [(s.mapPaddr, s.mapPaddr + sizes.metadataMap), (s.uninitPaddr, s.uninitPaddr + sizes.uninitRegions),
    (s.countsPaddr, s.countsPaddr + sizes.counts), (s.poolPaddr, s.poolPaddr + sizes.metadataPool)]

/-- The tables start on pages, share no address, and lie each in a usable entry. -/
structure Storage.Placed (mmap : List MemmapEntry) (sizes : TableSizes) (s : Storage) : Prop where
  aligned : ∀ r ∈ s.ranges sizes, 4096 ∣ r.1
  apart : (s.ranges sizes).Pairwise fun r r' => r.2 ≤ r'.1 ∨ r'.2 ≤ r.1
  inside : ∀ r ∈ s.ranges sizes, ∃ e ∈ mmap, e.usable ∧ e.base ≤ r.1 ∧ r.2 ≤ e.base + e.len

/-- They also lie above the lowest address for a table. -/
structure Storage.Sound (mmap : List MemmapEntry) (sizes : TableSizes) (s : Storage) : Prop
    extends Storage.Placed mmap sizes s where
  high : ∀ r ∈ s.ranges sizes, MIN_METADATA_BASE ≤ r.1

/-- The room for all tables but the pool. -/
def TableSizes.mapUninit (sizes : TableSizes) : Nat :=
  alignPage sizes.metadataMap + alignPage sizes.uninitRegions + alignPage sizes.counts

def TableSizes.total (sizes : TableSizes) : Nat := sizes.mapUninit + alignPage sizes.metadataPool

/-- The entries that the first searches accept. -/
def highEntry (e : MemmapEntry) : Bool := decide (MIN_METADATA_BASE ≤ e.base)

/-- No entry above the first megabyte has room for all tables, the best one for the pool is also
the best one for the rest, and the best one besides it lies below. -/
def LowAlternative (mmap : List MemmapEntry) (sizes : TableSizes) : Prop :=
  bestEntry highEntry sizes.total mmap = none ∧
    ∃ poolBase poolAvail mapAvail base avail,
      bestEntry highEntry sizes.metadataPool mmap = some (poolBase, poolAvail) ∧
      bestEntry highEntry sizes.mapUninit mmap = some (poolBase, mapAvail) ∧
      bestEntry (fun e => decide (e.base ≠ poolBase)) sizes.mapUninit mmap = some (base, avail) ∧
      base < MIN_METADATA_BASE

/-! ## The searches -/

/-- What a search returns belongs to an entry with room. -/
theorem bestEntry_some (h : bestEntry accept size mmap = some (base, avail)) :
    ∃ e ∈ mmap, e.usable ∧ accept e ∧ size ≤ availBytes e ∧ base = e.base ∧ avail = availBytes e := by
  have hfold : ∀ (l : List MemmapEntry) (best : Option (Nat × Nat)),
      l.foldl (fun best e => if e.usable ∧ accept e ∧ availBytes e ≥ size then
        keepBest best e.base (availBytes e) else best) best = some (base, avail) →
      best = some (base, avail) ∨ ∃ e ∈ l, e.usable ∧ accept e ∧ size ≤ availBytes e ∧
        base = e.base ∧ avail = availBytes e := by
    intro l
    induction l with
    | nil => exact fun _ => .inl
    | cons e l ih =>
      intro best hl
      rw [foldl_cons] at hl
      rcases ih _ hl with hstep | ⟨e', he', hspec⟩
      · split at hstep
        · next hroom =>
          unfold keepBest at hstep
          split at hstep
          · cases hstep
            exact .inr ⟨e, mem_cons_self, hroom.1, hroom.2.1, hroom.2.2, rfl, rfl⟩
          · exact .inl hstep
        · exact .inl hstep
      · exact .inr ⟨e', mem_cons_of_mem _ he', hspec⟩
  exact (hfold mmap none h).resolve_left nofun

theorem alignPage_of_dvd (h : 4096 ∣ v) : alignPage v = v := by
  unfold alignPage alignFrame
  omega

theorem alignPage_lt (v : Nat) : alignPage v < v + 4096 := (TwoPow.roundUp_spec (by decide)).2.1

/-- In an aligned entry all bytes are available. -/
theorem availBytes_of_aligned (h : e.PageAligned) : availBytes e = e.len := by
  rw [availBytes, alignPage_of_dvd h.1]
  omega

/-- What a successful search has found: an entry for all tables, or one for the pool and another
one for the rest. -/
theorem findMetadataStorage_cases (h : findMetadataStorage mmap sizes = .ok s) :
    (∃ base avail, bestEntry highEntry sizes.total mmap = some (base, avail) ∧
      s.mapPaddr = alignPage base ∧ s.uninitPaddr = alignPage (s.mapPaddr + sizes.metadataMap) ∧
      s.countsPaddr = alignPage (s.uninitPaddr + sizes.uninitRegions) ∧
      s.poolPaddr = alignPage (s.countsPaddr + sizes.counts) ∧
      s.poolPaddr + sizes.metadataPool ≤ base + avail) ∨
    bestEntry highEntry sizes.total mmap = none ∧ ∃ poolBase poolAvail best base avail,
      bestEntry highEntry sizes.metadataPool mmap = some (poolBase, poolAvail) ∧
      bestEntry highEntry sizes.mapUninit mmap = some best ∧
      (best.1 ≠ poolBase ∧ best = (base, avail) ∨ best.1 = poolBase ∧
        bestEntry (fun e => decide (e.base ≠ poolBase)) sizes.mapUninit mmap = some (base, avail)) ∧
      s.mapPaddr = alignPage base ∧ s.uninitPaddr = alignPage (s.mapPaddr + sizes.metadataMap) ∧
      s.countsPaddr = alignPage (s.uninitPaddr + sizes.uninitRegions) ∧
      s.countsPaddr + sizes.counts ≤ base + avail ∧ s.poolPaddr = alignPage poolBase := by
  unfold findMetadataStorage at h
  dsimp only at h
  split at h
  · next base avail hbest =>
    split at h
    · cases h
    · next hend =>
      cases h
      exact .inl ⟨base, avail, hbest, rfl, rfl, rfl, rfl, Nat.le_of_not_gt hend⟩
  · next hnone =>
    split at h
    · cases h
    · next poolBase poolAvail hpool =>
      split at h
      · cases h
      · next best hmap =>
        split at h
        · cases h
        · next base avail hentry =>
          split at h
          · cases h
          · next hend =>
            cases h
            refine .inr ⟨hnone, poolBase, poolAvail, best, base, avail, hpool, hmap, ?_, rfl, rfl, rfl,
              Nat.le_of_not_gt hend, rfl⟩
            split at hentry
            · next heq => exact .inr ⟨heq, hentry⟩
            · next hne =>
              cases hentry
              exact .inl ⟨hne, rfl⟩

/-! ## The placement -/

section Placement

variable {s : Storage}

/-- Two usable entries that do not start at the same address share none. -/
theorem apart_of_base_ne (hmap : MemmapOk mmap) (he : e ∈ mmap) (he' : e' ∈ mmap) (hu : e.usable)
    (hu' : e'.usable) (hne : e.base ≠ e'.base) : e.Apart e' := by
  have hsymm : Std.Symm MemmapEntry.Apart := ⟨fun a b => Or.symm⟩
  refine hmap.apart.forall ?_ ?_ fun heq => hne (heq ▸ rfl)
  · exact mem_filter.mpr ⟨he, hu⟩
  · exact mem_filter.mpr ⟨he', hu'⟩

/-- A property of all four ranges. -/
theorem Storage.forall_ranges {P : Nat × Nat → Prop} :
    (∀ r ∈ s.ranges sizes, P r) ↔ P (s.mapPaddr, s.mapPaddr + sizes.metadataMap) ∧
      P (s.uninitPaddr, s.uninitPaddr + sizes.uninitRegions) ∧
      P (s.countsPaddr, s.countsPaddr + sizes.counts) ∧ P (s.poolPaddr, s.poolPaddr + sizes.metadataPool) := by
  simp [Storage.ranges]

/-- The entry that a search returns, in a map of aligned entries. -/
theorem bestEntry_aligned (hmap : MemmapOk mmap)
    (h : bestEntry accept size mmap = some (base, avail)) :
    ∃ e ∈ mmap, e.usable ∧ accept e ∧ size ≤ e.len ∧ base = e.base ∧ avail = e.len ∧ 4096 ∣ base := by
  obtain ⟨e, he, hu, haccept, hroom, rfl, rfl⟩ := bestEntry_some h
  have hal := hmap.aligned e he hu
  rw [availBytes_of_aligned hal] at hroom ⊢
  exact ⟨e, he, hu, haccept, hroom, rfl, rfl, hal.1⟩

/-- The tables are placed, and above the first megabyte unless the last search went below it. -/
theorem findMetadataStorage_placed (hmap : MemmapOk mmap) (h : findMetadataStorage mmap sizes = .ok s) :
    s.Placed mmap sizes ∧
      ((∀ r ∈ s.ranges sizes, MIN_METADATA_BASE ≤ r.1) ↔ ¬ LowAlternative mmap sizes) := by
  rcases findMetadataStorage_cases h with ⟨base, avail, hbest, hm, hu, hc, hp, hend⟩ |
    ⟨hnone, poolBase, poolAvail, best, base, avail, hpool, hrest, hother, hm, hu, hc, hend, hp⟩
  · obtain ⟨e, he, husable, hhigh, -, rfl, rfl, hal⟩ := bestEntry_aligned hmap hbest
    have hhigh : MIN_METADATA_BASE ≤ e.base := of_decide_eq_true hhigh
    rw [alignPage_of_dvd hal] at hm
    have hu' := le_alignPage (s.mapPaddr + sizes.metadataMap)
    have hc' := le_alignPage (s.uninitPaddr + sizes.uninitRegions)
    have hp' := le_alignPage (s.countsPaddr + sizes.counts)
    rw [← hu] at hu'
    rw [← hc] at hc'
    rw [← hp] at hp'
    refine ⟨⟨?_, ?_, ?_⟩, ?_⟩
    · rw [Storage.forall_ranges]
      exact ⟨hm ▸ hal, hu ▸ alignPage_dvd _, hc ▸ alignPage_dvd _, hp ▸ alignPage_dvd _⟩
    · simp only [Storage.ranges, pairwise_cons, mem_cons, forall_eq_or_imp, not_mem_nil,
        false_implies, implies_true, and_true, List.Pairwise.nil]
      omega
    · rw [Storage.forall_ranges]
      refine ⟨⟨e, he, husable, ?_⟩, ⟨e, he, husable, ?_⟩, ⟨e, he, husable, ?_⟩, e, he, husable, ?_⟩ <;>
        dsimp only <;> omega
    · rw [Storage.forall_ranges]
      refine iff_of_true (by dsimp only; omega) fun hlow => ?_
      rw [hlow.1] at hbest
      cases hbest
  · obtain ⟨ep, hep, hup, hhigh, hroom, rfl, -, halp⟩ := bestEntry_aligned hmap hpool
    have hhigh : MIN_METADATA_BASE ≤ ep.base := of_decide_eq_true hhigh
    -- In both cases the entry for the rest is not that of the pool.
    have hentry : ∃ e ∈ mmap, e.usable ∧ base = e.base ∧ avail = e.len ∧ 4096 ∣ base ∧ base ≠ ep.base ∧
        (MIN_METADATA_BASE ≤ base ↔ ¬ LowAlternative mmap sizes) := by
      rcases hother with ⟨hne, rfl⟩ | ⟨heq, halt⟩
      · obtain ⟨e, he, hue, hhighe, -, rfl, rfl, hal⟩ := bestEntry_aligned hmap hrest
        refine ⟨e, he, hue, rfl, rfl, hal, hne, iff_of_true (of_decide_eq_true hhighe) ?_⟩
        rintro ⟨-, poolBase, _, _, _, _, hpool', hrest', -⟩
        rw [hpool, Option.some.injEq, Prod.mk.injEq] at hpool'
        rw [hrest, Option.some.injEq, Prod.mk.injEq] at hrest'
        exact hne (hrest'.1.trans hpool'.1.symm)
      · obtain ⟨e, he, hue, hne, -, rfl, rfl, hal⟩ := bestEntry_aligned hmap halt
        refine ⟨e, he, hue, rfl, rfl, hal, of_decide_eq_true hne, ?_⟩
        rw [← Nat.not_lt, not_iff_not]
        constructor
        · obtain ⟨restBase, restAvail⟩ := best
          cases heq
          exact fun hlow => ⟨hnone, _, _, _, _, _, hpool, hrest, halt, hlow⟩
        · rintro ⟨-, _, _, _, _, _, hpool', -, halt', hlow⟩
          rw [hpool] at hpool'
          cases hpool'
          rw [halt] at halt'
          cases halt'
          exact hlow
    obtain ⟨e, he, hue, rfl, rfl, hal, hne, hiff⟩ := hentry
    have hapart := apart_of_base_ne hmap he hep hue hup hne
    unfold MemmapEntry.Apart at hapart
    rw [alignPage_of_dvd hal] at hm
    rw [alignPage_of_dvd halp] at hp
    have hu' := le_alignPage (s.mapPaddr + sizes.metadataMap)
    have hc' := le_alignPage (s.uninitPaddr + sizes.uninitRegions)
    rw [← hu] at hu'
    rw [← hc] at hc'
    refine ⟨⟨?_, ?_, ?_⟩, ?_⟩
    · rw [Storage.forall_ranges]
      exact ⟨hm ▸ hal, hu ▸ alignPage_dvd _, hc ▸ alignPage_dvd _, hp ▸ halp⟩
    · simp only [Storage.ranges, pairwise_cons, mem_cons, forall_eq_or_imp, not_mem_nil,
        false_implies, implies_true, and_true, List.Pairwise.nil]
      omega
    · rw [Storage.forall_ranges]
      refine ⟨⟨e, he, hue, ?_⟩, ⟨e, he, hue, ?_⟩, ⟨e, he, hue, ?_⟩, ep, hep, hup, ?_⟩ <;>
        dsimp only <;> omega
    · rw [Storage.forall_ranges, ← hiff]
      dsimp only
      omega

end Placement

/-- In a map of aligned entries that do not overlap, the tables are placed soundly exactly if the
last search does not go below the first megabyte. -/
theorem findMetadataStorage_sound_iff {mmap : List MemmapEntry} {sizes : TableSizes} {s : Storage}
    (hmap : MemmapOk mmap) (h : findMetadataStorage mmap sizes = .ok s) :
    s.Sound mmap sizes ↔ ¬ LowAlternative mmap sizes := by
  obtain ⟨hplaced, hiff⟩ := findMetadataStorage_placed hmap h
  rw [← hiff]
  exact ⟨fun hsound => hsound.high, fun hhigh => ⟨hplaced, hhigh⟩⟩

theorem smallMap_storage : findMetadataStorage smallMap (tableSizes (initConfig smallMap)) =
    .ok ⟨0x100000, 0x101000, 0x103000, 0x102000⟩ := by decide +kernel

theorem sound_smallMap : ∃ s, findMetadataStorage smallMap (tableSizes (initConfig smallMap)) = .ok s ∧
    s.Sound smallMap (tableSizes (initConfig smallMap)) := by
  refine ⟨_, smallMap_storage, (findMetadataStorage_sound_iff smallMap_ok smallMap_storage).mpr ?_⟩
  rintro ⟨hnone, -⟩
  exact absurd hnone (by decide +kernel)

/-- Four pages at 1 MiB and 16 pages at 64 KiB. -/
def lowMap : List MemmapEntry :=
  [⟨0x10000, 16 * 4096, true, by decide⟩, ⟨0x100000, 4 * 4096, true, by decide⟩]

theorem lowMap_ok : MemmapOk lowMap where
  aligned := by simp [lowMap, MemmapEntry.PageAligned]
  apart := by simp [lowMap, MemmapEntry.Apart]

/-- The pool takes the pages at 1 MiB, and the other tables go to 64 KiB. -/
theorem lowMap_storage : MemmapOk lowMap ∧ findMetadataStorage lowMap (tableSizes (initConfig lowMap)) =
    .ok ⟨0x10000, 0x11000, 0x100000, 0x12000⟩ ∧
    ¬ Storage.Sound lowMap (tableSizes (initConfig lowMap)) ⟨0x10000, 0x11000, 0x100000, 0x12000⟩ := by
  refine ⟨lowMap_ok, by decide +kernel, fun hsound => ?_⟩
  exact absurd (Storage.forall_ranges.mp hsound.high).1 (by decide)

end Pmm

end BoruixKernel
