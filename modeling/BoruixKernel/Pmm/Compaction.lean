import BoruixKernel.Pmm.Coalesced
import BoruixKernel.Pmm.HighOrder

/-!
# Compaction

`compact` empties all caches into the free lists.  It moves no page of the reserve and takes
nothing from the regions, and the frames that are free stay free.  That the largest free order
does not fall needs no look at the merges on the way: after the call all frames of what was a
block in a list or a cache are in the free lists, and free lists without buddies cannot hold an
aligned range in pieces (`Coalesced.order_le`).
-/

namespace BoruixKernel

open LinkedList List

namespace Pmm

/-- A free frame: in a block of a free list, of a cache or of the reserve, or in a region. -/
def Contents.FreeFrame (c : Contents) (p : Pmm) (x : Nat) : Prop :=
  ∃ s ∈ c.ranges [] p, s.1 ≤ x ∧ x < s.2

/-- What a call that only reorganises memory does to an allocator and the contents of its lists. -/
structure Reorganised (p p' : Pmm) (c c' : Contents) : Prop where
  free : ∀ x, c'.FreeFrame p' x ↔ c.FreeFrame p x
  allocatedFrames : p'.allocatedFrames = p.allocatedFrames
  caches : ∀ cpu < MAX_CPUS, ∀ order < MAX_ORDER,
    c'.cache cpu order = [] ∧ (p'.caches cpu).counts order = 0
  reserve : c'.reserve = c.reserve
  reserveCount : p'.reserveCount = p.reserveCount
  regions : p'.regions = p.regions
  maxFreeOrder : p.maxFreeOrder ≤ p'.maxFreeOrder

/-! ## The reserve -/

section Reserve

variable {p p' p'' : Pmm} {own own' own'' : Owners}

/-- The reserve has the same pages with the same links. -/
structure KeepsReserve (p : Pmm) (own : Owners) (p' : Pmm) (own' : Owners) : Prop where
  head : p'.reserveHead = p.reserveHead
  count : p'.reserveCount = p.reserveCount
  pages : ∀ {f}, own f = some (.block f 0 .reserve) → own' f = some (.block f 0 .reserve)
  links : ∀ {f}, own f = some (.block f 0 .reserve) → p'.next f = p.next f

theorem KeepsReserve.refl (p : Pmm) (own : Owners) : KeepsReserve p own p own := ⟨rfl, rfl, id, fun _ => rfl⟩

theorem KeepsReserve.trans (h : KeepsReserve p own p' own') (h' : KeepsReserve p' own' p'' own'') :
    KeepsReserve p own p'' own'' where
  head := h'.head.trans h.head
  count := h'.count.trans h.count
  pages hf := h'.pages (h.pages hf)
  links hf := (h'.links (h.pages hf)).trans (h.links hf)

theorem KeepsReserve.chain (h : KeepsReserve p own p' own') (hrep : Rep p own)
    (hl : Chain p.next p.reserveHead l) : Chain p'.next p'.reserveHead l := by
  obtain ⟨l0, hl0, hmem⟩ := hrep.reserve
  obtain rfl := hl.unique hl0
  rw [h.head]
  exact hl.congr fun f hf => h.links ((hmem f).mp hf)

theorem ListSteps.keepsReserve (h : ListSteps (p, own) (p', own')) (hrep : Rep p own) :
    KeepsReserve p own p' own' := by
  obtain ⟨-, hstores, hlinks⟩ := h.stores hrep
  exact ⟨h.listsOnly.reserveHead, h.listsOnly.reserveCount, (hstores _ 0 .reserve (by simp) id).mpr,
    hlinks _ 0 .reserve (by simp) id⟩

theorem Rep.percpuPopRaw_keepsReserve (h : Rep p own) (hpop : p.percpuPopRaw cpu k = (some b, p')) :
    Rep p' (own.assign b k .held) ∧ KeepsReserve p own p' (own.assign b k .held) := by
  obtain ⟨hb, hrep⟩ := h.percpuPopRaw hpop
  have hne : ∀ {f}, own f = some (.block f 0 .reserve) → ¬ (b ≤ f ∧ f < b + 2 ^ k) := by
    intro f hf hx
    rw [h.whole.whole hb hx] at hf
    cases hf
  refine ⟨hrep, ?_⟩
  unfold Pmm.percpuPopRaw at hpop
  simp only [] at hpop
  split at hpop
  · cases hpop
    refine ⟨rfl, rfl, fun hf => ?_, fun {f} hf => ?_⟩
    · rw [Owners.assign_outside (hne hf), hf]
    · have hfb : f ≠ b := by
        rintro rfl
        exact hne hf ⟨Nat.le_refl _, Nat.lt_add_of_pos_right (Nat.two_pow_pos k)⟩
      rw [next, modifyFrame_frames, if_neg hfb]
      rfl
  · cases hpop

theorem Rep.drainCache_keepsReserve (h : Rep p own) (cpu k n : Nat) :
    ∃ own', Rep (Pmm.drainCache cpu k n p) own' ∧
      KeepsReserve p own (Pmm.drainCache cpu k n p) own' := by
  induction n generalizing p own with
  | zero => exact ⟨own, h, .refl p own⟩
  | succ n ih =>
    rw [Pmm.drainCache]
    split
    · next b p1 hpop =>
      obtain ⟨hrep1, hkeeps1⟩ := h.percpuPopRaw_keepsReserve hpop
      obtain ⟨own2, hlisted2, -⟩ := hrep1.freeHeld Owners.assign_self
      obtain ⟨own3, hrep3, hkeeps3⟩ := ih hlisted2.rep
      exact ⟨own3, hrep3, (hkeeps1.trans (hlisted2.steps.keepsReserve hrep1)).trans hkeeps3⟩
    · next p1 hpop =>
      obtain rfl := percpuPopRaw_none hpop
      exact ⟨own, h, .refl p1 own⟩

/-- A compaction leaves the reserve alone. -/
theorem Rep.compact_keepsReserve (h : Rep p own) : ∃ own', KeepsReserve p own p.compact own' := by
  have hfold : ∀ (slots : List (Nat × Nat)) {p own}, Rep p own → ∃ own', KeepsReserve p own
      (slots.foldl (fun p slot => Pmm.drainCache slot.1 slot.2 p.totalFrames p) p) own' := by
    intro slots
    induction slots with
    | nil => exact fun {p own} _ => ⟨own, .refl p own⟩
    | cons slot slots ih =>
      intro p own h
      obtain ⟨own1, hrep1, hkeeps1⟩ := h.drainCache_keepsReserve slot.1 slot.2 p.totalFrames
      obtain ⟨own2, hkeeps2⟩ := ih hrep1
      exact ⟨own2, hkeeps1.trans hkeeps2⟩
  exact hfold cacheSlots h

end Reserve

/-! ## The largest order -/

/-- An aligned range that is in the free lists lies in one block, if no two buddies are there. -/
theorem Coalesced.order_le (hc : Coalesced own) (hw : own.Whole) (hm : m < MAX_ORDER) (hb : 2 ^ m ∣ b)
    (hall : ∀ x, b ≤ x ∧ x < b + 2 ^ m → ∃ c j, own x = some (.block c j .global)) :
    ∃ c j, own b = some (.block c j .global) ∧ m ≤ j := by
  induction m generalizing b with
  | zero =>
    obtain ⟨c, j, hown⟩ := hall b (by simp)
    exact ⟨c, j, hown, Nat.zero_le j⟩
  | succ m ih =>
    have hpow : 2 ^ (m + 1) = 2 ^ m * 2 := Nat.pow_succ ..
    have hhalf : 2 ^ m ∣ b := (Dvd.intro _ hpow.symm).trans hb
    have hstart : ∀ {a c : Nat}, 2 ^ m ∣ a → 2 ^ m ∣ c → c ≤ a → a < c + 2 ^ m → c = a := by
      rintro a c ⟨i, rfl⟩ ⟨j, rfl⟩ hle hlt
      have hle' := Nat.le_of_mul_le_mul_left hle (Nat.two_pow_pos m)
      rw [← Nat.mul_succ] at hlt
      have hlt' := Nat.lt_of_mul_lt_mul_left hlt
      rw [Nat.le_antisymm hle' (Nat.le_of_lt_succ hlt')]
    obtain ⟨c, j, hlow, hj⟩ := ih (by omega) hhalf fun x hx => hall x (by omega)
    rcases hj.lt_or_eq with hlt | rfl
    · exact ⟨c, j, hlow, hlt⟩
    · -- The lower half is a block, and so is the upper half, or a larger block has both.
      obtain rfl := hstart hhalf (hw.aligned hlow) (hw.inside hlow).1 (hw.inside hlow).2
      have hupper : 2 ^ m ∣ c + 2 ^ m := Nat.dvd_add hhalf (Nat.dvd_refl _)
      obtain ⟨c', j', hhigh, hj'⟩ := ih (by omega) hupper fun x hx => hall x (by omega)
      have hin := hw.inside hhigh
      rcases hj'.lt_or_eq with hlt | rfl
      · have hsize : 2 ^ (m + 1) ∣ c' := (Nat.pow_dvd_pow 2 hlt).trans (hw.aligned hhigh)
        have hle : c' ≤ c := by
          obtain ⟨i, rfl⟩ := hb
          obtain ⟨i', rfl⟩ := hsize
          refine Nat.mul_le_mul_left _ (Nat.le_of_lt_succ ?_)
          refine Nat.lt_of_mul_lt_mul_left (a := 2 ^ (m + 1)) ?_
          rw [Nat.mul_succ]
          omega
        have hboth := hw.whole hhigh (y := c) ⟨hle, by omega⟩
        rw [hlow] at hboth
        cases hboth
        exact absurd hlt (Nat.lt_irrefl m)
      · obtain rfl := hstart hupper (hw.aligned hhigh) hin.1 hin.2
        refine absurd ?_ (hc (show m < MAX_ORDER - 1 by omega) hlow)
        have hxor : c ^^^ 2 ^ m = c + 2 ^ m := by
          rcases TwoPow.buddy_cases hhalf with ⟨-, hxor⟩ | ⟨hdvd, heq⟩
          · exact hxor
          · -- Both `c` and the buddy below it would be multiples of twice the size.
            have hdvd' : 2 ^ (m + 1) ∣ 2 ^ m := by
              rw [heq] at hb
              exact (Nat.dvd_add_right hdvd).mp hb
            have hle := Nat.le_of_dvd (Nat.two_pow_pos m) hdvd'
            omega
        rw [InLists, buddyOf, hxor]
        exact hhigh

/-- A block of an order is free if and only if one is in a free list or in a cache. -/
theorem Rep.freeBlocks_pos (h : Rep p own) (hc : Counted p) (order : Nat) : 0 < p.freeBlocks order ↔
      ∃ b pl, own b = some (.block b order pl) ∧ (pl = .global ∨ ∃ cpu, pl = .cache cpu) := by
  obtain ⟨c, hof, hlists⟩ := h.contents
  have hglobal (shard : Nat) :
      p.listLength p.totalFrames (p.lists order shard) = (c.global order shard).length := by
    refine listLength_eq (hof.global order shard) (h.length_le (hof.global order shard) fun f hf => ?_)
    rw [((hlists.global order shard f).mp hf).1]
    nofun
  have hcache (cpu : Nat) : (p.caches cpu).counts order = (c.cache cpu order).length :=
    hc.length cpu order _ (hof.cache cpu order)
  have hsum : ∀ {n : Nat} {f : Nat → Nat}, 0 < ((List.range n).map f).sum ↔ ∃ i < n, 0 < f i := by
    intro n f
    rw [Nat.pos_iff_ne_zero, Ne, List.sum_eq_zero_iff_forall_eq_nat]
    simp [Nat.pos_iff_ne_zero]
  simp only [freeBlocks, hglobal, hcache, Nat.add_pos_iff_pos_or_pos, hsum, length_pos_iff_exists_mem]
  constructor
  · rintro (⟨shard, -, f, hf⟩ | ⟨cpu, -, f, hf⟩)
    · exact ⟨f, _, ((hlists.global order shard f).mp hf).1, .inl rfl⟩
    · exact ⟨f, _, (hlists.cache cpu order f).mp hf, .inr ⟨cpu, rfl⟩⟩
  · rintro ⟨f, pl, hf, rfl | ⟨cpu, rfl⟩⟩
    · exact .inl ⟨shardForPfn f, Nat.mod_lt _ (by decide), f, (hlists.global _ _ f).mpr ⟨hf, rfl⟩⟩
    · exact .inr ⟨cpu, h.whole.fits hf, f, (hlists.cache _ _ f).mpr hf⟩

/-- The largest order is zero, or that of a free block. -/
theorem maxFreeOrder_spec (p : Pmm) :
    p.maxFreeOrder = 0 ∨ 0 < p.freeBlocks p.maxFreeOrder ∧ p.maxFreeOrder < MAX_ORDER := by
  unfold maxFreeOrder
  cases hfind : (List.range MAX_ORDER).reverse.find? fun order => decide (0 < p.freeBlocks order) with
  | none => exact .inl rfl
  | some order =>
    have hpos := find?_some hfind
    have hmem := mem_of_find?_eq_some hfind
    rw [mem_reverse, mem_range] at hmem
    exact .inr ⟨of_decide_eq_true hpos, hmem⟩

/-! ## The call -/

/-- After a compaction the reserve has no page that it did not have before. -/
theorem Rep.compact_reserve (h : Rep p own) (h' : Rep p.compact own')
    (hf : own' f = some (.block f 0 .reserve)) : own f = some (.block f 0 .reserve) := by
  obtain ⟨own1, hkeeps⟩ := h.compact_keepsReserve
  obtain ⟨l, hl, hmem⟩ := h.reserve
  obtain ⟨l', hl', hmem'⟩ := h'.reserve
  rw [← hmem, (hkeeps.chain h hl).unique hl']
  exact (hmem' f).mpr hf

/-- The frames of a block in a free list or in a cache are in the free lists after a compaction. -/
theorem Rep.compact_global (h : Rep p own) (hc : Counted p) (hquiet : Quiet p own p.compact own')
    (husage : own'.usage = own.usage) (hb : own b = some (.block b k pl))
    (hpl : pl = .global ∨ ∃ cpu, pl = .cache cpu) (hx : b ≤ x ∧ x < b + 2 ^ k) :
    ∃ c j, own' x = some (.block c j .global) := by
  have hout : ¬ pl.Out := by rcases hpl with rfl | ⟨cpu, rfl⟩ <;> exact id
  have hown := h.whole.whole hb hx
  have hfree := h.whole.free_of_listed hb hout x hx
  rw [← husage] at hfree
  cases hown' : own' x with
  | none =>
    rw [Owners.usage, hown'] at hfree
    cases hfree
  | some o =>
    cases o with
    | uninit =>
      rw [hquiet.uninit, hown] at hown'
      cases hown'
    | block c j q =>
      cases q with
      | global => exact ⟨c, j, rfl⟩
      | held | loose =>
        rw [Owners.usage, hown'] at hfree
        cases hfree
      | reserve =>
        -- A page of the reserve is a block by itself, and was in the reserve before.
        have hzero : j = 0 := hquiet.rep.whole.fits hown'
        have hin := hquiet.rep.whole.inside hown'
        rw [hzero, Nat.pow_zero] at hin
        obtain rfl : c = x := by omega
        rw [hzero] at hown'
        rw [h.compact_reserve hquiet.rep hown'] at hown
        cases hown
        rcases hpl with hpl | ⟨cpu, hpl⟩ <;> cases hpl
      | cache cpu =>
        have hstart := hquiet.rep.whole.start hown'
        obtain ⟨l, hl, hmem⟩ := hquiet.rep.cache cpu j
        rw [hc.compact_empties h (hquiet.rep.whole.fits hown') (hquiet.rep.whole.order hown')] at hl
        have hnil : l = [] := hl.unique rfl
        have hmem := (hmem c).mpr hstart
        rw [hnil] at hmem
        cases hmem

/-- A compaction of free lists without buddies does not lower the largest free order. -/
theorem Rep.compact_maxFreeOrder (h : Rep p own) (hc : Counted p) (hc' : Counted p.compact)
    (hquiet : Quiet p own p.compact own') (husage : own'.usage = own.usage) (hcoalesced : Coalesced own') :
    p.maxFreeOrder ≤ p.compact.maxFreeOrder := by
  rcases maxFreeOrder_spec p with hzero | ⟨hpos, hlt⟩
  · exact hzero.le.trans (Nat.zero_le _)
  · obtain ⟨b, pl, hb, hpl⟩ := (h.freeBlocks_pos hc _).mp hpos
    obtain ⟨c, j, hown, hle⟩ := hcoalesced.order_le hquiet.rep.whole hlt (h.whole.aligned hb)
      fun x hx => h.compact_global hc hquiet husage hb hpl hx
    have hstart := hquiet.rep.whole.start hown
    have hj := (hquiet.rep.freeBlocks_pos hc' j).mpr ⟨c, .global, hstart, .inl rfl⟩
    exact hle.trans (le_find?_reverse_range (hquiet.rep.whole.order hown) (decide_eq_true hj))

section FirstCpu

variable {p : Pmm}

theorem drainCache_of_empty (n : Nat) (h : (p.caches (cpu % MAX_CPUS)).heads k = none) :
    drainCache cpu k n p = p := by
  cases n with
  | zero => rfl
  | succ n => rw [drainCache, percpuPopRaw, h]

theorem drainCache_caches (n : Nat) (hc : c ≠ cpu % MAX_CPUS) :
    (drainCache cpu k n p).caches c = p.caches c := by
  induction n generalizing p with
  | zero => rfl
  | succ n ih =>
    rw [drainCache]
    split
    · next b p1 hpop =>
      have hpopped : p1.caches c = p.caches c := by
        unfold percpuPopRaw at hpop
        simp only [] at hpop
        split at hpop
        · cases hpop
          exact Function.update_of_ne hc ..
        · cases hpop
      rw [ih, (freeAndMerge_listsOnly p1 b k).caches, hpopped]
    · next p1 hpop =>
      rw [percpuPopRaw_none hpop]

/-- Where only the first CPU has cached blocks, only its caches are drained. -/
theorem compact_of_first (h : ∀ cpu < MAX_CPUS, cpu ≠ 0 → ∀ order < MAX_ORDER,
    (p.caches cpu).heads order = none) :
    p.compact = (List.range MAX_ORDER).foldl (fun p order => drainCache 0 order p.totalFrames p) p := by
  have hfirst : ∀ (orders : List Nat) (q : Pmm) {c : Nat}, c ≠ 0 →
      (orders.foldl (fun p order => drainCache 0 order p.totalFrames p) q).caches c = q.caches c := by
    intro orders
    induction orders with
    | nil => exact fun _ _ _ => rfl
    | cons order orders ih => exact fun q c hc => (ih _ hc).trans (drainCache_caches _ hc)
  have hrest : ∀ (slots : List (Nat × Nat)) {q : Pmm},
      (∀ slot ∈ slots, (q.caches (slot.1 % MAX_CPUS)).heads slot.2 = none) →
      slots.foldl (fun p slot => drainCache slot.1 slot.2 p.totalFrames p) q = q := by
    intro slots
    induction slots with
    | nil => exact fun _ => rfl
    | cons slot slots ih =>
      obtain ⟨cpu, order⟩ := slot
      intro q hempty
      have hslot : drainCache cpu order q.totalFrames q = q :=
        drainCache_of_empty _ (hempty _ mem_cons_self)
      rw [foldl_cons]
      dsimp only
      rw [hslot]
      exact ih fun slot hslot => hempty slot (mem_cons_of_mem _ hslot)
  have hslots : cacheSlots = (List.range MAX_ORDER).map (0, ·) ++
      ((List.range 63).map Nat.succ).flatMap fun cpu => (List.range MAX_ORDER).map (cpu, ·) := by
    rw [cacheSlots, show MAX_CPUS = 63 + 1 from rfl, range_succ_eq_map, flatMap_cons]
  rw [compact, drainPercpuAll, hslots, foldl_append, foldl_map]
  refine hrest _ fun slot hslot => ?_
  simp only [mem_flatMap, mem_map, mem_range] at hslot
  obtain ⟨_, ⟨c, hc, rfl⟩, order, horder, rfl⟩ := hslot
  have hlt : c.succ < MAX_CPUS := Nat.succ_lt_succ hc
  have hempty := h c.succ hlt c.succ_ne_zero order horder
  rw [Nat.mod_eq_of_lt hlt, hfirst _ _ c.succ_ne_zero]
  exact hempty

end FirstCpu

/-- Frames 256 to 293, which are just enough for the tables and the reserve, and 301 to 303. -/
def sparePageMap : List MemmapEntry :=
  [⟨256 * 4096, 38 * 4096, true, by decide⟩, ⟨301 * 4096, 3 * 4096, true, by decide⟩]

theorem sparePageMap_ok : MemmapOk sparePageMap where
  aligned := by simp [sparePageMap, MemmapEntry.PageAligned]
  apart := by simp [sparePageMap, MemmapEntry.Apart]

theorem sparePageMap_caches : ((init sparePageMap).toOption.map fun p => (List.range MAX_CPUS).all fun cpu =>
    cpu == 0 || (List.range MAX_ORDER).all fun order =>
      (((p.allocate 0 1).2.deallocate 0 293).caches cpu).heads order == none) = some true := by
  decide +kernel

end Pmm

end BoruixKernel
