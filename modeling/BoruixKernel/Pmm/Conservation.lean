import BoruixKernel.Pmm.Init

/-!
# Conservation of frames

The runs of a client of the allocator, and what holds at every point of a run: the
frames that `init` recorded are partitioned among the blocks of the client, the free
lists, the caches, the reserve and the regions that are left.

The abstract side is `Ledger`: owners that agree with the data structure, and whose
held blocks are those of the client.  Every call keeps it (`Ledger.alloc`,
`Ledger.free`, `Ledger.reorganise`), and the partition is read off from it.
-/

namespace BoruixKernel

open LinkedList List Owners

namespace Pmm

/-! ## Runs -/

/-- The runs of a client that frees only blocks it holds: the state they reach, and the
blocks held, each with its order.  A call that panics ends the run. -/
inductive PmmRun (mmap : List MemmapEntry) : Pmm → List (Nat × Nat) → Prop
  | init {p : Pmm} (hinit : init mmap = .ok p) : PmmRun mmap p []
  | alloc {p p' : Pmm} {held : List (Nat × Nat)} (hrun : PmmRun mmap p held) {cpu order pfn : Nat}
      (halloc : p.allocate cpu order = (.frame pfn, p')) : PmmRun mmap p' ((pfn, order) :: held)
  | fail {p p' : Pmm} {held : List (Nat × Nat)} (hrun : PmmRun mmap p held) {cpu order : Nat}
      (halloc : p.allocate cpu order = (.none, p')) : PmmRun mmap p' held
  | free {p : Pmm} {held : List (Nat × Nat)} (hrun : PmmRun mmap p held) {cpu order pfn : Nat}
      (hheld : (pfn, order) ∈ held) :
      PmmRun mmap (p.deallocate cpu pfn) (held.erase (pfn, order))
  | compact {p : Pmm} {held : List (Nat × Nat)} (hrun : PmmRun mmap p held) :
      PmmRun mmap p.compact held

def recordedRegions (mmap : List MemmapEntry) : List UninitRegion :=
  match recordRegions mmap with
  | .ok st => st.recorded
  | .error _ => []

/-! ## The ledger -/

def heldFrames (held : List (Nat × Nat)) : Nat := (held.map fun blk => 2 ^ blk.2).sum

/-- Owners that agree with the data structure, with the recorded regions and with what
the client holds. -/
structure Ledger (recorded : List UninitRegion) (p : Pmm) (held : List (Nat × Nat))
    (own : Owners) : Prop where
  inv : Inv p own
  managed : ∀ x, own x = none ↔ recordedOwners recorded x = none
  out : ∀ {b k pl}, pl.Out → (own b = some (.block b k pl) ↔ pl = .held ∧ (b, k) ∈ held)
  nodup : held.Nodup
  count : p.allocatedFrames = heldFrames held

/-- A step that does not change the usage of memory. -/
theorem Ledger.reorganise (h : Ledger recorded p held own) (hinv : Inv p' own')
    (husage : own'.usage = own.usage) (hcount : p'.allocatedFrames = p.allocatedFrames) :
    Ledger recorded p' held own' where
  inv := hinv
  managed x := by
    rw [← usage_none, husage, usage_none]
    exact h.managed x
  out hpl := by
    rw [← usage_block hpl, husage, usage_block hpl]
    exact h.out hpl
  nodup := h.nodup
  count := hcount.trans h.count

theorem Ledger.alloc (h : Ledger recorded p held own) (hinv : Inv p' own')
    (htaken : Owners.Taken own own' b k) (hcount : p'.allocatedFrames = p.allocatedFrames + 2 ^ k) :
    Ledger recorded p' ((b, k) :: held) own' where
  inv := hinv
  managed x := by
    rw [← h.managed x, ← usage_none, htaken.usage]
    by_cases hx : b ≤ x ∧ x < b + 2 ^ k
    · have hfree : own x ≠ none := by
        rw [Ne, ← usage_none, htaken.free x hx]
        simp
      simp [assign_inside hx, hfree]
    · rw [assign_outside hx, usage_none]
  out {c j pl} hpl := by
    rw [← usage_block hpl, htaken.usage, mem_cons, Prod.mk.injEq]
    by_cases hc : b ≤ c ∧ c < b + 2 ^ k
    · -- The frames of the block were free, so no other block starts among them.
      have hnot : ¬ (pl = .held ∧ (c, j) ∈ held) := by
        rw [← h.out hpl, ← usage_block hpl, htaken.free c hc]
        simp
      rw [assign_inside hc, Option.some.injEq, Owner.block.injEq]
      constructor
      · rintro ⟨rfl, rfl, rfl⟩
        exact ⟨rfl, .inl ⟨rfl, rfl⟩⟩
      · rintro ⟨rfl, ⟨rfl, rfl⟩ | hmem⟩
        · exact ⟨rfl, rfl, rfl⟩
        · exact absurd ⟨rfl, hmem⟩ hnot
    · have hne : c ≠ b := by
        rintro rfl
        exact hc ⟨Nat.le_refl _, Nat.lt_add_of_pos_right (Nat.two_pow_pos k)⟩
      rw [assign_outside hc, usage_block hpl, h.out hpl]
      simp [hne]
  nodup := by
    refine nodup_cons.mpr ⟨fun hmem => ?_, h.nodup⟩
    have hheld : Place.held.Out := trivial
    have hself := (h.out hheld).mpr ⟨rfl, hmem⟩
    have hfree := htaken.free b ⟨Nat.le_refl _, Nat.lt_add_of_pos_right (Nat.two_pow_pos k)⟩
    rw [← usage_block hheld, hfree] at hself
    cases hself
  count := by
    rw [hcount, h.count, heldFrames, heldFrames, map_cons, sum_cons, Nat.add_comm]

theorem Ledger.free (h : Ledger recorded p held own) (hmem : (b, k) ∈ held) (hinv : Inv p' own')
    (husage : own'.usage = own.usage.release b k)
    (hcount : p'.allocatedFrames = fetchSub p.allocatedFrames (2 ^ k)) :
    Ledger recorded p' (held.erase (b, k)) own' where
  inv := hinv
  managed x := by
    have hheld : Place.held.Out := trivial
    rw [← h.managed x, ← usage_none, husage, Owners.release]
    split
    · next hx => simp [h.inv.whole.whole ((h.out hheld).mpr ⟨rfl, hmem⟩) hx]
    · rw [usage_none]
  out {c j pl} hpl := by
    have hheld : Place.held.Out := trivial
    have hb := (h.out hheld).mpr ⟨rfl, hmem⟩
    rw [← usage_block hpl, husage, Owners.release, h.nodup.mem_erase_iff]
    split
    · next hc =>
      -- The only held block that starts among these frames is the block itself.
      simp only [Option.some.injEq, reduceCtorEq, ne_eq, false_iff]
      rintro ⟨rfl, hne, hc'⟩
      have hown := (h.out hheld).mpr ⟨rfl, hc'⟩
      rw [h.inv.whole.whole hb hc] at hown
      simp only [Option.some.injEq, Owner.block.injEq] at hown
      exact hne (by rw [hown.1, hown.2.1])
    · next hc =>
      rw [usage_block hpl, h.out hpl]
      refine and_congr_right fun _ => ⟨fun hmem' => ⟨?_, hmem'⟩, And.right⟩
      rintro ⟨⟩
      exact hc ⟨Nat.le_refl _, Nat.lt_add_of_pos_right (Nat.two_pow_pos _)⟩
  nodup := h.nodup.erase _
  count := by
    have hsum : 2 ^ k + heldFrames (held.erase (b, k)) = heldFrames held := by
      have hperm := (perm_cons_erase hmem).map fun blk => 2 ^ blk.2
      have := hperm.sum_nat
      rw [map_cons, sum_cons] at this
      exact this.symm
    rw [hcount, h.count, fetchSub, if_pos (by omega)]
    omega

variable {mmap : List MemmapEntry} {p : Pmm} {held : List (Nat × Nat)}

section

variable (hmap : MemmapOk mmap) (hrun : PmmRun mmap p held)

include hmap hrun

/-- Every run has a ledger, and is a sequence of steps from what `init` recorded. -/
theorem PmmRun.history :
    ∃ st own, recordRegions mmap = .ok st ∧ Ledger (recordedRegions mmap) p held own ∧
      Steps (ofRegions (initConfig mmap) st, recordedOwners st.recorded) (p, own) := by
  induction hrun with
  | init hinit =>
    obtain ⟨st, hrecord, rfl⟩ := init_eq_ok hinit
    obtain ⟨own, hinv, husage, hcount, hsteps⟩ := init_inv hmap hrecord
    have hregions : recordedRegions mmap = st.recorded := by rw [recordedRegions, hrecord]
    refine ⟨st, own, hrecord, ⟨hinv, fun x => ?_, fun {b k pl} hpl => ?_, .nil, hcount⟩, hsteps⟩
    · rw [← usage_none, husage, usage_none, hregions]
    · rw [← usage_block hpl, husage, usage_block hpl]
      simp [recordedOwners_not_block]
  | alloc _ halloc ih =>
    obtain ⟨st, own, hrecord, h, hsteps⟩ := ih
    obtain ⟨own', hinv, hspec, hcall⟩ := h.inv.allocate halloc
    exact ⟨st, own', hrecord, h.alloc hinv hspec.of_frame.1 hspec.of_frame.2, hsteps.trans hcall⟩
  | fail _ halloc ih =>
    obtain ⟨st, own, hrecord, h, hsteps⟩ := ih
    obtain ⟨own', hinv, hspec, hcall⟩ := h.inv.allocate halloc
    exact ⟨st, own', hrecord, h.reorganise hinv hspec.of_none.1 hspec.of_none.2, hsteps.trans hcall⟩
  | free _ hheld ih =>
    obtain ⟨st, own, hrecord, h, hsteps⟩ := ih
    have hout : Place.held.Out := trivial
    obtain ⟨own', hinv, husage, hcount, hcall⟩ := h.inv.deallocate _ ((h.out hout).mpr ⟨rfl, hheld⟩)
    exact ⟨st, own', hrecord, h.free hheld hinv husage hcount, hsteps.trans hcall⟩
  | compact _ ih =>
    obtain ⟨st, own, hrecord, h, hsteps⟩ := ih
    obtain ⟨own', hquiet, husage⟩ := h.inv.toRep.compact
    exact ⟨st, own', hrecord, h.reorganise (h.inv.quiet hquiet) husage hquiet.allocated,
      hsteps.trans hquiet.steps⟩

theorem PmmRun.ledger : ∃ own, Ledger (recordedRegions mmap) p held own := by
  obtain ⟨-, own, -, h, -⟩ := hrun.history hmap
  exact ⟨own, h⟩

/-- What holds of the regions `init` has recorded and is kept by every step holds at every point
of a run. -/
theorem PmmRun.invariant {I : Pmm × Owners → Prop} (hinit : ∀ st, recordRegions mmap = .ok st →
      I (ofRegions (initConfig mmap) st, recordedOwners st.recorded))
    (hstep : ∀ {s t}, Rep s.1 s.2 → I s → Step s t → I t) :
    ∃ own, Ledger (recordedRegions mmap) p held own ∧ I (p, own) := by
  obtain ⟨st, own, hrecord, h, hsteps⟩ := hrun.history hmap
  exact ⟨own, h, hsteps.invariant hstep (recordRegions_good hmap hrecord).inv.toRep (hinit st hrecord)⟩

end

/-! ## The partition -/

/-- The blocks of the lists of an allocator: the free lists by order and shard, the
caches by CPU and order, and the reserve. -/
structure Contents where
  global : Nat → Nat → List Nat
  cache : Nat → Nat → List Nat
  reserve : List Nat

/-- Following the links of every list visits its blocks and ends. -/
structure Contents.Of (c : Contents) (p : Pmm) : Prop where
  global : ∀ order shard, Chain p.next (p.lists order shard) (c.global order shard)
  cache : ∀ cpu order, Chain p.next ((p.caches cpu).heads order) (c.cache cpu order)
  reserve : Chain p.next p.reserveHead c.reserve

/-- All blocks with their orders and where they are. -/
def Contents.blocks (c : Contents) (held : List (Nat × Nat)) : List (Nat × Nat × Place) :=
  held.map (fun blk => (blk.1, blk.2, .held)) ++
    ((List.range MAX_ORDER).flatMap fun order => (List.range SHARD_COUNT).flatMap fun shard =>
      (c.global order shard).map fun pfn => (pfn, order, .global)) ++
    ((List.range MAX_CPUS).flatMap fun cpu => (List.range MAX_ORDER).flatMap fun order =>
      (c.cache cpu order).map fun pfn => (pfn, order, .cache cpu)) ++
    c.reserve.map fun pfn => (pfn, 0, .reserve)

/-- The frames of all blocks and of the regions that are left, as half-open ranges. -/
def Contents.ranges (c : Contents) (held : List (Nat × Nat)) (p : Pmm) : List (Nat × Nat) :=
  (c.blocks held).map (fun blk => (blk.1, blk.1 + 2 ^ blk.2.1)) ++
    p.regions.filterMap (Option.map fun r => (r.startPfn, r.endPfn))

/-- Ranges without overlap that cover exactly the given frames. -/
structure Partition (ranges : List (Nat × Nat)) (frames : Nat → Prop) : Prop where
  apart : ranges.Pairwise fun s t => ∀ x, ¬ ((s.1 ≤ x ∧ x < s.2) ∧ t.1 ≤ x ∧ x < t.2)
  cover : ∀ x, (∃ s ∈ ranges, s.1 ≤ x ∧ x < s.2) ↔ frames x

section Partition

variable {own : Owners} {c : Contents}

/-- The contents list the blocks of the owners. -/
structure Contents.Lists (c : Contents) (own : Owners) : Prop where
  global : ∀ order shard pfn, pfn ∈ c.global order shard ↔
    own pfn = some (.block pfn order .global) ∧ shardForPfn pfn = shard
  cache : ∀ cpu order pfn, pfn ∈ c.cache cpu order ↔
    own pfn = some (.block pfn order (.cache cpu))
  reserve : ∀ pfn, pfn ∈ c.reserve ↔ own pfn = some (.block pfn 0 .reserve)

/-- The contents of an allocator that agrees with its owners. -/
theorem Rep.contents (h : Rep p own) : ∃ c : Contents, c.Of p ∧ c.Lists own := by
  choose global hglobal hmem using h.global
  choose cache hcache hmem' using h.cache
  obtain ⟨reserve, hreserve, hmem''⟩ := h.reserve
  exact ⟨⟨global, cache, reserve⟩, ⟨fun o s => (hglobal o s).chain, hcache, hreserve⟩,
    ⟨hmem, hmem', hmem''⟩⟩

/-- The blocks are those of the owners. -/
theorem Ledger.mem_blocks (h : Ledger recorded p held own)
    (hc : c.Lists own) : (b, k, pl) ∈ c.blocks held ↔ own b = some (.block b k pl) := by
  have hwhole := h.inv.whole
  simp only [Contents.blocks, mem_append, mem_map, mem_flatMap, mem_range,
    Prod.mk.injEq]
  cases pl with
  | held =>
    have hheld : Place.held.Out := trivial
    rw [h.out hheld]
    simp only [true_and, reduceCtorEq, and_false, exists_false, or_false]
    constructor
    · rintro ⟨⟨b', k'⟩, hmem, rfl, rfl, -⟩
      exact hmem
    · exact fun hmem => ⟨(b, k), hmem, rfl, rfl, trivial⟩
  | loose =>
    have hloose : Place.loose.Out := trivial
    rw [h.out hloose]
    simp
  | global =>
    simp only [reduceCtorEq, and_false, exists_false, false_or, or_false, and_true]
    constructor
    · rintro ⟨o, -, s, -, f, hf, rfl, rfl⟩
      exact ((hc.global o s f).mp hf).1
    · intro hb
      exact ⟨k, hwhole.order hb, shardForPfn b, Nat.mod_lt _ (by decide), b,
        (hc.global _ _ _).mpr ⟨hb, rfl⟩, rfl, rfl⟩
  | cache cpu =>
    simp only [reduceCtorEq, and_false, exists_false, false_or, or_false, Place.cache.injEq]
    constructor
    · rintro ⟨c', -, o, -, f, hf, rfl, rfl, rfl⟩
      exact (hc.cache _ _ _).mp hf
    · intro hb
      exact ⟨cpu, hwhole.fits hb, k, hwhole.order hb, b, (hc.cache _ _ _).mpr hb, rfl, rfl, rfl⟩
  | reserve =>
    simp only [reduceCtorEq, and_false, exists_false, false_or, and_true]
    constructor
    · rintro ⟨f, hf, rfl, rfl⟩
      exact (hc.reserve f).mp hf
    · intro hb
      obtain rfl : k = 0 := hwhole.fits hb
      exact ⟨b, (hc.reserve b).mpr hb, rfl, rfl⟩

/-- No block is listed twice. -/
theorem Ledger.nodup_blocks (h : Ledger recorded p held own) (hof : c.Of p) (hc : c.Lists own) :
    (c.blocks held).Nodup := by
  have hheld : (held.map fun blk => ((blk.1, blk.2, .held) : Nat × Nat × Place)).Nodup :=
    h.nodup.map fun a b hab => by
      simp only [Prod.mk.injEq, and_true] at hab
      exact Prod.ext hab.1 hab.2
  have hglobal : ((List.range MAX_ORDER).flatMap fun order =>
      (List.range SHARD_COUNT).flatMap fun shard => (c.global order shard).map fun pfn =>
        ((pfn, order, .global) : Nat × Nat × Place)).Nodup := by
    refine nodup_flatMap.mpr ⟨fun o _ => nodup_flatMap.mpr ⟨fun s _ => ?_, ?_⟩, ?_⟩
    · exact (hof.global o s).nodup.map fun a b hab => by simpa using hab
    · refine nodup_range.imp fun {s s'} hne t ht ht' => ?_
      obtain ⟨f, hf, rfl⟩ := mem_map.mp ht
      obtain ⟨f', hf', heq⟩ := mem_map.mp ht'
      obtain rfl : f' = f := (Prod.mk.inj heq).1
      exact hne (((hc.global _ _ _).mp hf).2.symm.trans ((hc.global _ _ _).mp hf').2)
    · refine nodup_range.imp fun {o o'} hne t ht ht' => ?_
      simp only [mem_flatMap, mem_map] at ht ht'
      obtain ⟨s, -, f, -, rfl⟩ := ht
      obtain ⟨s', -, f', -, heq⟩ := ht'
      simp only [Prod.mk.injEq] at heq
      exact hne heq.2.1.symm
  have hcache : ((List.range MAX_CPUS).flatMap fun cpu => (List.range MAX_ORDER).flatMap fun order =>
      (c.cache cpu order).map fun pfn => ((pfn, order, .cache cpu) : Nat × Nat × Place)).Nodup := by
    refine nodup_flatMap.mpr ⟨fun u _ => nodup_flatMap.mpr ⟨fun o _ => ?_, ?_⟩, ?_⟩
    · exact (hof.cache u o).nodup.map fun a b hab => by simpa using hab
    · refine nodup_range.imp fun {o o'} hne t ht ht' => ?_
      simp only [mem_map] at ht ht'
      obtain ⟨f, -, rfl⟩ := ht
      obtain ⟨f', -, heq⟩ := ht'
      simp only [Prod.mk.injEq] at heq
      exact hne heq.2.1.symm
    · refine nodup_range.imp fun {u u'} hne t ht ht' => ?_
      simp only [mem_flatMap, mem_map] at ht ht'
      obtain ⟨o, -, f, -, rfl⟩ := ht
      obtain ⟨o', -, f', -, heq⟩ := ht'
      simp only [Prod.mk.injEq, Place.cache.injEq] at heq
      exact hne heq.2.2.symm
  have hreserve : (c.reserve.map fun pfn => ((pfn, 0, .reserve) : Nat × Nat × Place)).Nodup :=
    hof.reserve.nodup.map fun a b hab => by simpa using hab
  unfold Contents.blocks
  -- The four parts differ in the place of their blocks.
  refine ((hheld.append hglobal ?_).append hcache ?_).append hreserve ?_
  all_goals
    intro t ht ht'
    simp only [mem_append, mem_map, mem_flatMap] at ht ht'
    obtain ⟨b, k, pl⟩ := t
    simp only [Prod.mk.injEq] at ht ht'
    grind

/-- The frames of a listed block belong to it. -/
theorem Ledger.own_block (h : Ledger recorded p held own) (hc : c.Lists own)
    (ht : t ∈ c.blocks held)
    (hx : t.1 ≤ x ∧ x < t.1 + 2 ^ t.2.1) : own x = some (.block t.1 t.2.1 t.2.2) :=
  h.inv.whole.whole ((h.mem_blocks hc).mp ht) hx

/-- The regions that are left hold the frames that are not initialised. -/
theorem Ledger.own_region (h : Ledger recorded p held own)
    (hr : r ∈ p.regions.filterMap (Option.map fun r => (r.startPfn, r.endPfn)))
    (hx : r.1 ≤ x ∧ x < r.2) :
    own x = some .uninit := by
  obtain ⟨o, ho, hor⟩ := mem_filterMap.mp hr
  cases o with
  | none => cases hor
  | some region =>
    cases hor
    obtain ⟨i, hi⟩ := mem_iff_getElem?.mp ho
    exact (h.inv.uninit x).mpr ⟨i, region, hi, hx⟩

theorem Ledger.partition (h : Ledger recorded p held own) (hof : c.Of p) (hc : c.Lists own) :
    Partition (c.ranges held p) fun x => ∃ r ∈ recorded, r.startPfn ≤ x ∧ x < r.endPfn where
  apart := by
    refine pairwise_append.mpr ⟨?_, ?_, ?_⟩
    · rw [pairwise_map]
      refine (h.nodup_blocks hof hc).imp_of_mem fun {t t'} ht ht' hne x hx => hne ?_
      have heq := (h.own_block hc ht hx.1).symm.trans (h.own_block hc ht' hx.2)
      simp only [Option.some.injEq, Owner.block.injEq] at heq
      exact Prod.ext heq.1 (Prod.ext heq.2.1 heq.2.2)
    · rw [pairwise_filterMap, pairwise_iff_getElem]
      intro i j hi hj hij s hs t ht x hx
      obtain ⟨r, hr, rfl⟩ := Option.map_eq_some_iff.mp hs
      obtain ⟨r', hr', rfl⟩ := Option.map_eq_some_iff.mp ht
      have := h.inv.apart i j r r' (by rw [getElem?_eq_getElem hi, hr])
        (by rw [getElem?_eq_getElem hj, hr']) hij.ne
      simp only [] at hx
      omega
    · intro s hs t ht x hx
      obtain ⟨blk, hblk, rfl⟩ := mem_map.mp hs
      have heq := (h.own_block hc hblk hx.1).symm.trans (h.own_region ht hx.2)
      cases heq
  cover x := by
    have hmanaged : own x ≠ none ↔ ∃ r ∈ recorded, r.startPfn ≤ x ∧ x < r.endPfn := by
      rw [Ne, h.managed]
      simp [recordedOwners]
    rw [← hmanaged]
    constructor
    · rintro ⟨s, hs, hx⟩
      rcases mem_append.mp hs with hs | hs
      · obtain ⟨blk, hblk, rfl⟩ := mem_map.mp hs
        simp [h.own_block hc hblk hx]
      · simp [h.own_region hs hx]
    · intro hsome
      cases hown : own x with
      | none => exact absurd hown hsome
      | some o =>
        cases o with
        | uninit =>
          obtain ⟨i, r, hr, hx⟩ := (h.inv.uninit x).mp hown
          refine ⟨(r.startPfn, r.endPfn), mem_append_right _ ?_, hx⟩
          exact mem_filterMap.mpr ⟨some r, mem_of_getElem? hr, rfl⟩
        | block b k pl =>
          have hblk := (h.mem_blocks hc).mpr (h.inv.whole.start hown)
          exact ⟨_, mem_append_left _ (mem_map_of_mem hblk), h.inv.whole.inside hown⟩

end Partition

/-- At every point of every run, the frames that `init` recorded are partitioned among
the blocks held, the lists and the regions that are left; every block is aligned to its
size; and the counter counts the frames held. -/
theorem PmmRun.conserved {mmap : List MemmapEntry} {p : Pmm} {held : List (Nat × Nat)}
    (hmap : MemmapOk mmap) (hrun : PmmRun mmap p held) :
    ∃ c : Contents, c.Of p ∧
      Partition (c.ranges held p)
        (fun x => ∃ r ∈ recordedRegions mmap, r.startPfn ≤ x ∧ x < r.endPfn) ∧
      (∀ blk ∈ c.blocks held, 2 ^ blk.2.1 ∣ blk.1) ∧
      p.allocatedFrames = (held.map fun blk => 2 ^ blk.2).sum := by
  obtain ⟨own, h⟩ := hrun.ledger hmap
  obtain ⟨c, hof, hc⟩ := h.inv.toRep.contents
  refine ⟨c, hof, h.partition hof hc, fun blk hblk => ?_, h.count⟩
  exact h.inv.whole.aligned ((h.mem_blocks hc).mp hblk)

/-- A machine with 64 usable pages above the first megabyte. -/
def smallMap : List MemmapEntry := [⟨0x100000, 64 * 4096, true, by decide⟩]

theorem smallMap_ok : MemmapOk smallMap where
  aligned := by simp [smallMap, MemmapEntry.PageAligned]
  apart := by simp [smallMap]

/-- What can be computed of the allocator after `init`. -/
theorem exists_init (mmap : List MemmapEntry) (Q : Pmm → Prop) [DecidablePred Q]
    (h : (init mmap).toOption.any (Q ·)) : ∃ p, init mmap = .ok p ∧ Q p := by
  cases hinit : init mmap with
  | error msg =>
    rw [hinit] at h
    cases h
  | ok p =>
    rw [hinit] at h
    exact ⟨p, rfl, of_decide_eq_true h⟩

theorem smallMap_run : ∃ p, PmmRun smallMap p [(296, 2)] := by
  obtain ⟨p, hinit, hresult⟩ := exists_init smallMap (fun p => (p.allocate 0 2).1 = .frame 296)
    (by decide +kernel)
  exact ⟨(p.allocate 0 2).2, .alloc (.init hinit) (Prod.ext hresult rfl)⟩

theorem conserved_smallMap : ∃ p, PmmRun smallMap p [(296, 2)] ∧ ∃ c : Contents, c.Of p ∧
    Partition (c.ranges [(296, 2)] p)
      (fun x => ∃ r ∈ recordedRegions smallMap, r.startPfn ≤ x ∧ x < r.endPfn) ∧
    (∀ blk ∈ c.blocks [(296, 2)], 2 ^ blk.2.1 ∣ blk.1) ∧ p.allocatedFrames = 4 := by
  obtain ⟨p, hrun⟩ := smallMap_run
  exact ⟨p, hrun, PmmRun.conserved smallMap_ok hrun⟩

end Pmm

end BoruixKernel
