import BoruixKernel.Pmm.Conservation
import BoruixKernel.Pmm.CacheCounts

/-!
# The figures of /proc/meminfo

`build_meminfo` adds up the numbers of blocks in the free lists and in the caches, whatever
their orders, and the frames that are not initialised.  It leaves out the reserve.  What is
missing is `unreported`, and with it the figures are exact: the free figure is right where
nothing is unreported, that is where all lists but those of single pages, and the reserve, are
empty.
-/

namespace BoruixKernel

open LinkedList List

namespace Pmm

/-! ## The figures -/

/-- `frag_stats`: the blocks of an order in the free lists, in the caches, and the frames that
are not initialised. -/
def freeGlobalByOrder (p : Pmm) (order : Nat) : Nat :=
  ((List.range SHARD_COUNT).map fun shard => p.listLength p.totalFrames (p.lists order shard)).sum

def freePercpuByOrder (p : Pmm) (order : Nat) : Nat :=
  ((List.range MAX_CPUS).map fun cpu => (p.caches cpu).counts order).sum

def uninitFrames (p : Pmm) : Nat :=
  (p.regions.map fun r => (r.map fun r => r.endPfn - r.startPfn).getD 0).sum

/-- The figures of memory in the text of `build_meminfo`, in its order.  The counters of calls
that follow are not modelled. -/
structure MemInfo where
  memTotal : Nat
  memFree : Nat
  memAvailable : Nat
  memUsed : Nat
  framesTotal : Nat
  framesAllocated : Nat
  framesFreeGlobal : Nat
  framesFreePerCpu : Nat
  framesUninit : Nat
deriving DecidableEq, Repr

def buildMeminfo (p : Pmm) : MemInfo :=
  let freeGlobal := ((List.range MAX_ORDER).map p.freeGlobalByOrder).sum
  let freePercpu := ((List.range MAX_ORDER).map p.freePercpuByOrder).sum
  let freeFrames := freeGlobal + freePercpu + p.uninitFrames
  let totalFrames := p.allocatedFrames + freeFrames
  { memTotal := totalFrames * 4
    memFree := freeFrames * 4
    memAvailable := freeFrames * 4
    memUsed := p.allocatedFrames * 4
    framesTotal := totalFrames
    framesAllocated := p.allocatedFrames
    framesFreeGlobal := freeGlobal
    framesFreePerCpu := freePercpu
    framesUninit := p.uninitFrames }

/-! ## What they should be -/

/-- The frames that `init` recorded. -/
def Recorded (mmap : List MemmapEntry) (x : Nat) : Prop :=
  ∃ r ∈ recordedRegions mmap, r.startPfn ≤ x ∧ x < r.endPfn

/-- The frames of the blocks held. -/
def Held (held : List (Nat × Nat)) (x : Nat) : Prop := ∃ blk ∈ held, blk.1 ≤ x ∧ x < blk.1 + 2 ^ blk.2

noncomputable def framesNotHeld (mmap : List MemmapEntry) (held : List (Nat × Nat)) : Nat :=
  {x | Recorded mmap x ∧ ¬ Held held x}.ncard

noncomputable def framesRecorded (mmap : List MemmapEntry) : Nat := {x | Recorded mmap x}.ncard

/-- Only single pages are in the free lists and in the caches, and the reserve is empty. -/
structure Flat (p : Pmm) : Prop where
  global : ∀ order shard, 0 < order → order < MAX_ORDER → shard < SHARD_COUNT → p.lists order shard = none
  cache : ∀ cpu order, 0 < order → order < MAX_ORDER → cpu < MAX_CPUS → (p.caches cpu).heads order = none
  reserve : p.reserveHead = none

/-! ## Counting frames -/

/-- The number of frames in ranges that do not overlap. -/
theorem ncard_ranges {rs : List (Nat × Nat)}
    (hapart : rs.Pairwise fun s t => ∀ x, ¬ ((s.1 ≤ x ∧ x < s.2) ∧ t.1 ≤ x ∧ x < t.2)) :
    {x | ∃ s ∈ rs, s.1 ≤ x ∧ x < s.2}.Finite ∧
      {x | ∃ s ∈ rs, s.1 ≤ x ∧ x < s.2}.ncard = (rs.map fun s => s.2 - s.1).sum := by
  induction rs with
  | nil => simp
  | cons s rs ih =>
    obtain ⟨hs, hrs⟩ := pairwise_cons.mp hapart
    obtain ⟨hfin, hcard⟩ := ih hrs
    have hunion : {x | ∃ t ∈ s :: rs, t.1 ≤ x ∧ x < t.2} =
        ↑(Finset.Ico s.1 s.2) ∪ {x | ∃ t ∈ rs, t.1 ≤ x ∧ x < t.2} := by
      ext x
      simp
    have hdisj : Disjoint (↑(Finset.Ico s.1 s.2) : Set Nat) {x | ∃ t ∈ rs, t.1 ≤ x ∧ x < t.2} := by
      refine Set.disjoint_left.mpr fun x hx => ?_
      rintro ⟨t, ht, hxt⟩
      exact hs t ht x ⟨by simpa using hx, hxt⟩
    rw [hunion]
    refine ⟨(Finset.finite_toSet _).union hfin, ?_⟩
    rw [Set.ncard_union_eq hdisj (Finset.finite_toSet _) hfin, hcard, Set.ncard_coe_finset, Nat.card_Ico,
      map_cons, sum_cons]

section Contents

variable {p : Pmm} {own : Owners} {c : Contents}

/-- The ranges of the blocks held, and the others. -/
theorem Contents.ranges_eq (c : Contents) (held : List (Nat × Nat)) (p : Pmm) :
    c.ranges held p = held.map (fun blk => (blk.1, blk.1 + 2 ^ blk.2)) ++ c.ranges [] p := by
  simp [Contents.ranges, Contents.blocks, map_append, map_map, append_assoc, Function.comp_def]

/-- The frames that nobody holds are those of the other blocks and of the regions. -/
theorem Partition.notHeld {frames : Nat → Prop} (h : Partition (c.ranges held p) frames) (x : Nat) :
    (frames x ∧ ¬ Held held x) ↔ ∃ s ∈ c.ranges [] p, s.1 ≤ x ∧ x < s.2 := by
  rw [← h.cover x]
  have hranges := c.ranges_eq held p
  have hapart := h.apart
  rw [hranges] at hapart ⊢
  have hcross := (pairwise_append.mp hapart).2.2
  constructor
  · rintro ⟨⟨s, hs, hx⟩, hnot⟩
    rcases mem_append.mp hs with hs | hs
    · obtain ⟨blk, hblk, rfl⟩ := mem_map.mp hs
      exact absurd ⟨blk, hblk, hx⟩ hnot
    · exact ⟨s, hs, hx⟩
  · rintro ⟨s, hs, hx⟩
    refine ⟨⟨s, mem_append_right _ hs, hx⟩, ?_⟩
    rintro ⟨blk, hblk, hx'⟩
    exact hcross _ (mem_map_of_mem hblk) s hs x ⟨hx', hx⟩

/-- What the figures show of a block, and what they do not. -/
def shown (blk : Nat × Nat × Place) : Nat := if blk.2.2 = .reserve then 0 else 1

def hidden (blk : Nat × Nat × Place) : Nat := 2 ^ blk.2.1 - shown blk

/-- The frames that the figures leave out. -/
def Contents.unreported (c : Contents) : Nat := ((c.blocks []).map hidden).sum

theorem shown_add_hidden (blk : Nat × Nat × Place) : shown blk + hidden blk = 2 ^ blk.2.1 := by
  have hpos := Nat.two_pow_pos blk.2.1
  unfold hidden shown
  split <;> omega

/-- The frames of the other blocks and of the regions. -/
theorem Contents.sum_ranges (c : Contents) (p : Pmm) :
    ((c.ranges [] p).map fun s => s.2 - s.1).sum =
      ((c.blocks []).map shown).sum + c.unreported + p.uninitFrames := by
  have hblocks : ((c.blocks []).map fun blk => blk.1 + 2 ^ blk.2.1 - blk.1).sum =
      ((c.blocks []).map shown).sum + c.unreported := by
    rw [Contents.unreported, ← sum_map_add]
    refine congrArg List.sum (map_congr_left fun blk _ => ?_)
    rw [shown_add_hidden, Nat.add_sub_cancel_left]
  have hregions : ((p.regions.filterMap (Option.map fun r => (r.startPfn, r.endPfn))).map
      fun s => s.2 - s.1).sum = p.uninitFrames := by
    rw [uninitFrames]
    induction p.regions with
    | nil => rfl
    | cons r rs ih =>
      cases r with
      | none => simpa using ih
      | some r => simpa using ih
  rw [Contents.ranges, map_append, sum_append, map_map, hregions]
  exact congrArg (· + p.uninitFrames) hblocks

variable {head : Option Nat} {l : List Nat}

theorem listLength_eq {fuel : Nat} (hl : Chain p.next head l) (hfuel : l.length ≤ fuel) :
    p.listLength fuel head = l.length := by
  induction l generalizing fuel head with
  | nil =>
    rw [show head = none from hl]
    cases fuel <;> rfl
  | cons pfn l ih =>
    obtain ⟨rfl, hl⟩ := hl
    cases fuel with
    | zero => exact absurd hfuel (by simp)
    | succ fuel =>
      rw [listLength, length_cons]
      exact congrArg (· + 1) (ih hl (Nat.le_of_succ_le_succ hfuel))

/-- A list has no more blocks than there are frames. -/
theorem Rep.length_le (h : Rep p own) (hl : Chain p.next head l) (hown : ∀ f ∈ l, own f ≠ none) :
    l.length ≤ p.totalFrames := by
  have hsub : ∀ f ∈ l, f ∈ List.range p.totalFrames := fun f hf =>
    mem_range.mpr (h.bound (hown f hf)).1
  have hle := (hl.nodup.subperm hsub).length_le
  rwa [length_range] at hle

theorem sum_map_one {α : Type} {l : List α} {f : α → Nat} (h : ∀ a ∈ l, f a = 1) :
    (l.map f).sum = l.length := by
  rw [map_congr_left h]
  simp

theorem sum_swap {α β : Type} (as : List α) (bs : List β) (f : α → β → Nat) :
    (as.map fun a => (bs.map fun b => f a b).sum).sum = (bs.map fun b => (as.map fun a => f a b).sum).sum := by
  induction as with
  | nil => simp
  | cons a as ih => simp [ih]

/-- The numbers that are added up are those of the blocks outside the reserve. -/
theorem Contents.sum_shown (h : Rep p own) (hcount : Counted p) (hof : c.Of p) (hc : c.Lists own) :
    ((c.blocks []).map shown).sum = ((List.range MAX_ORDER).map p.freeGlobalByOrder).sum +
      ((List.range MAX_ORDER).map p.freePercpuByOrder).sum := by
  have hglobal (o s : Nat) : p.listLength p.totalFrames (p.lists o s) = (c.global o s).length := by
    refine listLength_eq (hof.global o s) (h.length_le (hof.global o s) fun f hf => ?_)
    rw [((hc.global o s f).mp hf).1]
    nofun
  have hcache (cpu o : Nat) : (p.caches cpu).counts o = (c.cache cpu o).length :=
    hcount.length cpu o _ (hof.cache cpu o)
  have hreserve : ((c.reserve.map fun pfn => ((pfn, 0, .reserve) : Nat × Nat × Place)).map shown).sum = 0 := by
    rw [map_map]
    refine sum_eq_zero fun n hn => ?_
    obtain ⟨pfn, -, rfl⟩ := mem_map.mp hn
    rfl
  simp only [Contents.blocks, map_nil, nil_append, map_append, sum_append, hreserve,
    Nat.add_zero]
  have hglobals : p.freeGlobalByOrder = fun o =>
      ((List.range SHARD_COUNT).map fun s => (c.global o s).length).sum := by
    funext o
    simp [freeGlobalByOrder, hglobal]
  have hcaches : p.freePercpuByOrder = fun o =>
      ((List.range MAX_CPUS).map fun cpu => (c.cache cpu o).length).sum := by
    funext o
    simp [freePercpuByOrder, hcache]
  rw [hglobals, hcaches]
  refine congrArg₂ (· + ·) ?_ ?_
  · rw [sum_map_one fun blk hblk => ?_]
    · simp
    · simp only [mem_flatMap, mem_map] at hblk
      obtain ⟨o, -, s, -, f, -, rfl⟩ := hblk
      rfl
  · rw [sum_map_one fun blk hblk => ?_]
    · simp only [length_flatMap, length_map]
      exact sum_swap (List.range MAX_CPUS) (List.range MAX_ORDER) fun cpu o => (c.cache cpu o).length
    · simp only [mem_flatMap, mem_map] at hblk
      obtain ⟨cpu, -, o, -, f, -, rfl⟩ := hblk
      rfl

/-- Nothing is left out if and only if all blocks are single pages outside the reserve. -/
theorem Contents.unreported_eq_zero (hof : c.Of p) : c.unreported = 0 ↔ Flat p := by
  have hnil {head : Option Nat} {l : List Nat} (hl : Chain p.next head l) : l = [] ↔ head = none := by
    constructor
    · rintro rfl
      exact hl
    · rintro rfl
      exact hl.unique rfl
  have hzero : c.unreported = 0 ↔ ∀ blk ∈ c.blocks [], hidden blk = 0 := by
    rw [Contents.unreported, List.sum_eq_zero_iff_forall_eq_nat]
    exact forall_mem_map
  rw [hzero]
  have hpow {o : Nat} (ho : 0 < o) : 2 ≤ 2 ^ o := by
    calc 2 = 2 ^ 1 := rfl
      _ ≤ 2 ^ o := Nat.pow_le_pow_right (by decide) ho
  constructor
  · intro hall
    refine ⟨fun o s ho hlt hs => ?_, fun cpu o ho hlt hcpu => ?_, ?_⟩
    · refine (hnil (hof.global o s)).mp (eq_nil_iff_forall_not_mem.mpr fun f hf => ?_)
      have hblk := hall (f, o, .global) (by
        simp only [Contents.blocks, mem_append, mem_flatMap, mem_map, mem_range]
        exact .inl (.inl (.inr ⟨o, hlt, s, hs, f, hf, rfl⟩)))
      have h2 := hpow ho
      simp only [hidden, shown, reduceCtorEq, if_false] at hblk
      omega
    · refine (hnil (hof.cache cpu o)).mp (eq_nil_iff_forall_not_mem.mpr fun f hf => ?_)
      have hblk := hall (f, o, .cache cpu) (by
        simp only [Contents.blocks, mem_append, mem_flatMap, mem_map, mem_range]
        exact .inl (.inr ⟨cpu, hcpu, o, hlt, f, hf, rfl⟩))
      have h2 := hpow ho
      simp only [hidden, shown, reduceCtorEq, if_false] at hblk
      omega
    · refine (hnil hof.reserve).mp (eq_nil_iff_forall_not_mem.mpr fun f hf => ?_)
      have hblk := hall (f, 0, .reserve) (by
        simp only [Contents.blocks, mem_append, mem_map]
        exact .inr ⟨f, hf, rfl⟩)
      have hone : hidden (f, 0, .reserve) = 1 := rfl
      omega
  · intro hflat blk hblk
    simp only [Contents.blocks, map_nil, nil_append, mem_append, mem_flatMap,
      mem_map, mem_range] at hblk
    rcases hblk with (⟨o, ho, s, hs, f, hf, rfl⟩ | ⟨cpu, hcpu, o, ho, f, hf, rfl⟩) | ⟨f, hf, rfl⟩
    · obtain rfl : o = 0 := by
        refine Nat.eq_zero_of_not_pos fun hpos => ?_
        rw [(hnil (hof.global o s)).mpr (hflat.global o s hpos ho hs)] at hf
        cases hf
      rfl
    · obtain rfl : o = 0 := by
        refine Nat.eq_zero_of_not_pos fun hpos => ?_
        rw [(hnil (hof.cache cpu o)).mpr (hflat.cache cpu o hpos ho hcpu)] at hf
        cases hf
      rfl
    · rw [(hnil hof.reserve).mpr hflat.reserve] at hf
      cases hf

end Contents

/-! ## Runs -/

variable {mmap : List MemmapEntry} {p : Pmm} {held : List (Nat × Nat)}

/-- The counts are right at every point of a run. -/
theorem PmmRun.counted (hmap : MemmapOk mmap) (hrun : PmmRun mmap p held) : Tallied p := by
  induction hrun with
  | init hinit =>
    obtain ⟨st, hrecord, rfl⟩ := init_eq_ok hinit
    refine Tallied.initReserve ⟨⟨fun c o l hl => ?_⟩, fun _ _ => Nat.zero_le _⟩
      (recordRegions_good hmap hrecord).inv (Nat.zero_add _).le
    have hnil : l = [] := hl.unique rfl
    rw [hnil]
    rfl
  | alloc hprev halloc ih =>
    obtain ⟨own, h⟩ := hprev.ledger hmap
    exact ih.allocate h.inv halloc
  | fail hprev halloc ih =>
    obtain ⟨own, h⟩ := hprev.ledger hmap
    exact ih.allocate h.inv halloc
  | free hprev hheld ih =>
    obtain ⟨own, h⟩ := hprev.ledger hmap
    have hout : Place.held.Out := trivial
    exact ih.deallocate h.inv _ ((h.out hout).mpr ⟨rfl, hheld⟩)
  | compact hprev ih =>
    obtain ⟨own, h⟩ := hprev.ledger hmap
    exact ih.compact h.inv.toRep

/-- At every point of a run both figures are too low by four times the same number, and it is
zero if and only if the lists are flat. -/
theorem PmmRun.unreported (hmap : MemmapOk mmap) (hrun : PmmRun mmap p held) :
    ∃ n, p.buildMeminfo.memFree + n * 4 = framesNotHeld mmap held * 4 ∧
      p.buildMeminfo.memTotal + n * 4 = framesRecorded mmap * 4 ∧ (n = 0 ↔ Flat p) := by
  obtain ⟨own, h⟩ := hrun.ledger hmap
  obtain ⟨c, hof, hc⟩ := h.inv.toRep.contents
  have hpart := h.partition hof hc
  have hshown := Contents.sum_shown h.inv.toRep (hrun.counted hmap).toCounted hof hc
  have hfree : framesNotHeld mmap held =
      ((c.blocks []).map shown).sum + c.unreported + p.uninitFrames := by
    have hset : {x | Recorded mmap x ∧ ¬ Held held x} = {x | ∃ s ∈ c.ranges [] p, s.1 ≤ x ∧ x < s.2} :=
      Set.ext fun x => hpart.notHeld x
    have hapart := hpart.apart
    rw [c.ranges_eq] at hapart
    rw [framesNotHeld, hset, (ncard_ranges (pairwise_append.mp hapart).2.1).2, c.sum_ranges]
  have hall : framesRecorded mmap = heldFrames held + framesNotHeld mmap held := by
    have hset : {x | Recorded mmap x} = {x | ∃ s ∈ c.ranges held p, s.1 ≤ x ∧ x < s.2} :=
      Set.ext fun x => (hpart.cover x).symm
    rw [framesRecorded, hset, (ncard_ranges hpart.apart).2, c.ranges_eq, map_append, sum_append,
      c.sum_ranges, hfree, heldFrames, map_map]
    refine congrArg (· + _) (congrArg List.sum (map_congr_left fun blk _ => ?_))
    exact Nat.add_sub_cancel_left ..
  have hcount := h.count
  refine ⟨c.unreported, ?_, ?_, Contents.unreported_eq_zero hof⟩
  · simp only [buildMeminfo]
    rw [hfree, hshown]
    omega
  · simp only [buildMeminfo]
    rw [hall, hfree, hshown, hcount]
    omega

/-- A machine on which `init` leaves a single page. -/
def onePageMap : List MemmapEntry := [⟨0x100000, 7 * 4096, true, by decide⟩]

theorem onePageMap_ok : MemmapOk onePageMap where
  aligned := by simp [onePageMap, MemmapEntry.PageAligned]
  apart := by simp [onePageMap]

end Pmm

end BoruixKernel
