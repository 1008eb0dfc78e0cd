import BoruixKernel.Pmm.Conservation

/-!
# Completeness of the search

A search that finds nothing has looked everywhere.  Each part of the search is given by the
condition under which it finds nothing (the lemmas `…_eq_none`): the shards of one order, the
orders from the one asked for upwards, the regions in the order of the last use, the cache, and the
reserve for single pages.  None of them asks for a reachable state.
-/

namespace BoruixKernel

open List

/-- There is an aligned block of the order in the region. -/
def UninitRegion.HasBlock (r : UninitRegion) (order : Nat) : Prop :=
  ∃ b, 2 ^ order ∣ b ∧ r.startPfn ≤ b ∧ b + 2 ^ order ≤ r.endPfn

/-- Counting modulo `n` from any start meets every number below `n`. -/
theorem mem_map_add_mod (i : Nat) (hj : j < n) :
    j ∈ (List.range n).map fun offset => (i + offset) % n := by
  have hi : i % n < n := Nat.mod_lt _ (by omega)
  refine mem_map.mpr ⟨(j + (n - i % n)) % n, mem_range.mpr (Nat.mod_lt _ (by omega)), ?_⟩
  rw [Nat.add_mod_mod, Nat.add_mod, ← Nat.add_mod_mod (i % n), Nat.mod_mod, Nat.add_mod_mod,
    show i % n + (j + (n - i % n)) = j + n by omega, Nat.add_mod_right, Nat.mod_eq_of_lt hj]

/-- Rounding up gives the first multiple. -/
theorem UninitRegion.hasBlock_iff (r : UninitRegion) (order : Nat) :
    r.HasBlock order ↔ Pmm.alignFrame r.startPfn (2 ^ order) + 2 ^ order ≤ r.endPfn := by
  have hpos := Nat.two_pow_pos order
  have hle : r.startPfn ≤ Pmm.alignFrame r.startPfn (2 ^ order) := by
    have := Nat.lt_div_mul_add hpos (a := r.startPfn + 2 ^ order - 1)
    unfold Pmm.alignFrame
    omega
  constructor
  · rintro ⟨b, ⟨q, rfl⟩, hstart, hend⟩
    have hdiv : (r.startPfn + 2 ^ order - 1) / 2 ^ order ≤ q := by
      refine Nat.le_of_lt_succ ((Nat.div_lt_iff_lt_mul hpos).mpr ?_)
      rw [Nat.succ_mul, Nat.mul_comm]
      omega
    have hround : Pmm.alignFrame r.startPfn (2 ^ order) ≤ 2 ^ order * q := by
      rw [Pmm.alignFrame, Nat.mul_comm]
      exact Nat.mul_le_mul_left _ hdiv
    omega
  · intro hend
    exact ⟨_, Nat.dvd_mul_left .., hle, hend⟩

namespace Pmm

section Search

variable {p : Pmm} {k cpu : Nat}

/-- No free list has a block of the order or of a larger one, and no region has room for one. -/
structure GlobalEmpty (p : Pmm) (order : Nat) : Prop where
  lists : ∀ o, order ≤ o → o < MAX_ORDER → ∀ shard < SHARD_COUNT, p.lists o shard = none
  regions : ∀ r, some r ∈ p.regions → ¬ r.HasBlock order

/-- None of the four places the CPU looks at has a block of the order. -/
structure NothingFor (p : Pmm) (cpu order : Nat) : Prop extends GlobalEmpty p order where
  cache : (p.caches (cpu % MAX_CPUS)).heads order = none
  reserve : order = 0 → p.reserveHead = none

theorem popShards_eq_none :
    (p.popShards k shards).1 = none ↔ ∀ shard ∈ shards, p.lists k shard = none := by
  induction shards with
  | nil => simp [popShards]
  | cons shard shards ih =>
    rw [popShards]
    cases hhead : p.lists k shard with
    | none => simp [ih, hhead]
    | some idx => simp [hhead]

theorem popFromGlobal_eq_none (k cpu : Nat) :
    (p.popFromGlobal k cpu).1 = none ↔ ∀ shard < SHARD_COUNT, p.lists k shard = none := by
  rw [popFromGlobal, popShards_eq_none]
  constructor
  · exact fun h shard hshard => h shard (mem_map_add_mod _ hshard)
  · intro h shard hshard
    obtain ⟨offset, -, rfl⟩ := mem_map.mp hshard
    exact h _ (Nat.mod_lt _ (by decide))

theorem allocFromHigher_eq_none (k cpu : Nat) : (p.allocFromHigher k cpu orders).1 = none ↔
      ∀ o ∈ orders, ∀ shard < SHARD_COUNT, p.lists o shard = none := by
  induction orders with
  | nil => simp [allocFromHigher]
  | cons o orders ih =>
    rw [forall_mem_cons, ← popFromGlobal_eq_none o cpu, ← ih, allocFromHigher]
    split
    · next hpop => simp [hpop]
    · next p1 hpop =>
      obtain rfl := popShards_none hpop
      simp [hpop]

theorem allocFromList_eq_none (hk : k < MAX_ORDER) : (p.allocFromList k cpu).1 = none ↔
      ∀ o, k ≤ o → o < MAX_ORDER → ∀ shard < SHARD_COUNT, p.lists o shard = none := by
  have hsplit : (p.allocFromList k cpu).1 = none ↔
      (∀ shard < SHARD_COUNT, p.lists k shard = none) ∧
        ∀ o ∈ (List.range (MAX_ORDER - (k + 1))).map (k + 1 + ·), ∀ shard < SHARD_COUNT,
          p.lists o shard = none := by
    rw [← popFromGlobal_eq_none k cpu, ← allocFromHigher_eq_none k cpu, allocFromList]
    split
    · next hpop => simp [hpop]
    · next p1 hpop =>
      obtain rfl := popShards_none hpop
      simp [hpop]
  rw [hsplit]
  constructor
  · rintro ⟨hsame, hhigher⟩ o hle hlt
    rcases Nat.eq_or_lt_of_le hle with rfl | hgt
    · exact hsame
    · refine hhigher o (mem_map.mpr ⟨o - (k + 1), mem_range.mpr (by omega), by omega⟩)
  · intro h
    refine ⟨h k (Nat.le_refl _) hk, fun o ho => ?_⟩
    obtain ⟨i, hi, rfl⟩ := mem_map.mp ho
    rw [mem_range] at hi
    exact h _ (by omega) (by omega)

theorem allocFromRegions_eq_none : (p.allocFromRegions k is).1 = none ↔
      ∀ i ∈ is, ∀ r, p.regions.getD i none = some r → ¬ r.HasBlock k := by
  induction is with
  | nil => simp [allocFromRegions]
  | cons i is ih =>
    rw [forall_mem_cons, allocFromRegions]
    simp only []
    split
    · next r hr =>
      split
      · next hfits =>
        have hblock := (r.hasBlock_iff k).mpr hfits
        exact iff_of_false (by simp) fun h => h.1 r hr hblock
      · next hfits =>
        rw [ih]
        refine ⟨fun h => ⟨fun r' hr' => ?_, h⟩, And.right⟩
        obtain rfl : r = r' := Option.some.inj (hr.symm.trans hr')
        exact (r.hasBlock_iff k).not.mpr hfits
    · next hr =>
      rw [ih]
      refine ⟨fun h => ⟨fun r hr' => ?_, h⟩, And.right⟩
      rw [hr] at hr'
      cases hr'

theorem allocFromUninit_eq_none :
    (p.allocFromUninit k).1 = none ↔ ∀ r, some r ∈ p.regions → ¬ r.HasBlock k := by
  unfold allocFromUninit
  simp only []
  rw [allocFromRegions_eq_none]
  constructor
  · intro h r hr
    obtain ⟨i, hi, hget⟩ := mem_iff_getElem.mp hr
    refine h i (mem_map_add_mod _ hi) r ?_
    rw [getD_eq_getElem?_getD, getElem?_eq_getElem hi, hget]
    rfl
  · intro h i _ r hr
    refine h r ?_
    rw [getD_eq_getElem?_getD] at hr
    cases hget : p.regions[i]? with
    | none =>
      rw [hget] at hr
      cases hr
    | some entry =>
      rw [hget] at hr
      obtain rfl : entry = some r := hr
      exact mem_of_getElem? hget

theorem allocGlobal_eq_none (hk : k < MAX_ORDER) :
    (p.allocGlobal k cpu).1 = none ↔ p.GlobalEmpty k := by
  have hsplit : (p.allocGlobal k cpu).1 = none ↔
      (p.allocFromList k cpu).1 = none ∧ (p.allocFromUninit k).1 = none := by
    rw [allocGlobal]
    split
    · next hlist => simp [hlist]
    · next p1 hlist =>
      obtain rfl := allocFromList_none hlist
      split
      · next huninit => simp [huninit]
      · next huninit => simp [hlist, huninit]
  rw [hsplit, allocFromList_eq_none hk, allocFromUninit_eq_none]
  exact ⟨fun h => ⟨h.1, h.2⟩, fun h => ⟨h.lists, h.regions⟩⟩

theorem percpuPopRaw_eq_none :
    (p.percpuPopRaw cpu k).1 = none ↔ (p.caches (cpu % MAX_CPUS)).heads k = none := by
  unfold percpuPopRaw
  simp only []
  split
  · next hhead => simp [hhead]
  · next hhead => simp [hhead]

theorem perCpuBatch_pos (o : Nat) : 0 < perCpuBatch o := by
  unfold perCpuBatch perCpuLimit
  repeat' split
  all_goals decide

/-- A batch has at least one block. -/
theorem percpuRefill_eq_none :
    (p.percpuRefill cpu k).1 = none ↔ (p.allocGlobal k cpu).1 = none := by
  obtain ⟨n, hn⟩ := Nat.exists_eq_succ_of_ne_zero (perCpuBatch_pos k).ne'
  rw [percpuRefill, hn, refillLoop]
  split
  · next hfirst =>
    simp [hfirst, refillLoop_first]
  · next hfirst => simp [hfirst]

theorem reservePop_eq_none : p.reservePop.1 = none ↔ p.reserveHead = none := by
  unfold reservePop
  split
  · next hhead => simp [hhead]
  · next hhead => simp [hhead]

/-- The search fails exactly if there is nothing at any of the places. -/
theorem findBlock_eq_none (hk : k < MAX_ORDER) :
    (p.findBlock k cpu).1 = none ↔ p.NothingFor cpu k := by
  have hsplit : (p.findBlock k cpu).1 = none ↔ (p.percpuPopRaw cpu k).1 = none ∧
      (p.percpuRefill cpu k).1 = none ∧ (p.allocGlobal k cpu).1 = none ∧
        (k = 0 → p.reservePop.1 = none) := by
    rw [findBlock]
    split
    · next hpop => simp [hpop]
    · next p1 hpop =>
      obtain rfl := percpuPopRaw_none hpop
      split
      · next hrefill => simp [hrefill]
      · next p2 hrefill =>
        obtain rfl := percpuRefill_none hrefill
        split
        · next hglobal => simp [hglobal]
        · next p3 hglobal =>
          obtain rfl := allocGlobal_none hglobal
          split
          · next hzero =>
            rw [hpop, hrefill, hglobal]
            simp [hzero]
          · next hzero =>
            rw [hpop, hrefill, hglobal]
            simp [hzero]
  rw [hsplit, percpuPopRaw_eq_none, percpuRefill_eq_none, allocGlobal_eq_none hk, reservePop_eq_none]
  constructor
  · rintro ⟨hcache, hglobal, -, hreserve⟩
    exact ⟨hglobal, hcache, hreserve⟩
  · intro h
    exact ⟨h.cache, h.toGlobalEmpty, h.toGlobalEmpty, h.reserve⟩

end Search

/-! ## Calls -/

/-- The state after the call of `allocate` has been counted. -/
def countCall (p : Pmm) : Pmm := { p with allocCalls := (p.allocCalls + 1) % 2 ^ 64 }

/-- A call of `allocate` compacts memory: it finds no block, enough calls have been made since the
last time, and no larger block is free. -/
structure Compacts (p : Pmm) (rawCpu order : Nat) : Prop where
  inRange : order < MAX_ORDER
  found : (p.countCall.findBlock order (currentCpuId rawCpu)).1 = none
  high : 0 < order
  interval : 1024 ≤ p.countCall.allocCalls - p.countCall.compactLastAllocCall
  fragmented : p.countCall.maxFreeOrder < order

section Calls

variable {p p' : Pmm} {order rawCpu : Nat}

theorem handOut_ne_none (p : Pmm) (idx order : Nat) : (p.handOut idx order).1 ≠ .none := by
  unfold handOut
  simp only []
  split <;> simp

theorem allocate_eq (horder : order < MAX_ORDER) (p : Pmm) (rawCpu : Nat) :
    p.allocate rawCpu order =
      match p.countCall.findBlock order (currentCpuId rawCpu) with
      | (some idx, p) => p.handOut idx order
      | (none, p) =>
        if order > 0 ∧ p.allocCalls - p.compactLastAllocCall ≥ 1024 ∧ p.maxFreeOrder < order then
          { p with compactLastAllocCall := p.allocCalls }.compact.retryGlobal order (currentCpuId rawCpu)
        else (.none, p) := by
  rw [allocate, if_neg (Nat.not_le.mpr horder)]
  rfl

theorem Compacts.allocate (h : p.Compacts rawCpu order) :
    p.allocate rawCpu order = { p.countCall with compactLastAllocCall := p.countCall.allocCalls }.compact.retryGlobal
      order (currentCpuId rawCpu) := by
  have hfind : p.countCall.findBlock order (currentCpuId rawCpu) = (none, p.countCall) :=
    Prod.ext h.found (findBlock_none (Prod.ext h.found rfl))
  rw [allocate_eq h.inRange, hfind]
  exact if_pos ⟨h.high, h.interval, h.fragmented⟩

/-- Counting a call puts nothing anywhere. -/
theorem nothingFor_countCall : p.countCall.NothingFor cpu order ↔ p.NothingFor cpu order :=
  ⟨fun h => ⟨⟨h.lists, h.regions⟩, h.cache, h.reserve⟩,
    fun h => ⟨⟨h.lists, h.regions⟩, h.cache, h.reserve⟩⟩

/-- The ways in which `allocate` fails. -/
theorem allocate_none_cases (horder : order < MAX_ORDER)
    (halloc : p.allocate rawCpu order = (.none, p')) :
    p.NothingFor (currentCpuId rawCpu) order ∧
      (¬ p.Compacts rawCpu order ∧ p' = p.countCall ∨
        p.Compacts rawCpu order ∧ p'.GlobalEmpty order ∧
          p' = { p.countCall with compactLastAllocCall := p.countCall.allocCalls }.compact) := by
  rw [allocate_eq horder] at halloc
  split at halloc
  · exact absurd (congrArg Prod.fst halloc) (handOut_ne_none _ _ _)
  · next p1 hfind =>
    have hnone := congrArg Prod.fst hfind
    refine ⟨nothingFor_countCall.mp ((findBlock_eq_none horder).mp hnone), ?_⟩
    rw [findBlock_none hfind] at halloc
    split at halloc
    · next hcompact =>
      refine .inr ⟨⟨horder, hnone, hcompact.1, hcompact.2.1, hcompact.2.2⟩, ?_⟩
      rw [retryGlobal] at halloc
      split at halloc
      · exact absurd (congrArg Prod.fst halloc) (handOut_ne_none _ _ _)
      · next p2 hretry =>
        cases halloc
        have hstate := allocGlobal_none hretry
        refine ⟨?_, hstate⟩
        rw [hstate]
        exact (allocGlobal_eq_none horder).mp (congrArg Prod.fst hretry)
    · next hcompact =>
      cases halloc
      exact .inl ⟨fun h => hcompact ⟨h.high, h.interval, h.fragmented⟩, rfl⟩

/-- A call that fails without compacting memory has found nothing in the cache of the CPU, in the
free lists of the order and of all larger ones, in the regions, and for a single page in the
reserve; and it has changed no more than the number of calls. -/
theorem allocate_complete (horder : order < MAX_ORDER)
    (halloc : p.allocate rawCpu order = (.none, p')) (hcompact : ¬ p.Compacts rawCpu order) :
    (p.caches (currentCpuId rawCpu)).heads order = none ∧
      (∀ o, order ≤ o → o < MAX_ORDER → ∀ shard < SHARD_COUNT, p.lists o shard = none) ∧
      (∀ r, some r ∈ p.regions →
        ¬ ∃ b, 2 ^ order ∣ b ∧ r.startPfn ≤ b ∧ b + 2 ^ order ≤ r.endPfn) ∧
      (order = 0 → p.reserveHead = none) ∧
      p' = { p with allocCalls := (p.allocCalls + 1) % 2 ^ 64 } := by
  obtain ⟨hnothing, hcases⟩ := allocate_none_cases horder halloc
  have hcpu : currentCpuId rawCpu % MAX_CPUS = currentCpuId rawCpu := by
    refine Nat.mod_eq_of_lt ?_
    unfold currentCpuId
    split
    · decide
    · next hlt => exact Nat.lt_of_not_le hlt
  have hcache := hnothing.cache
  rw [hcpu] at hcache
  refine ⟨hcache, hnothing.lists, hnothing.regions, hnothing.reserve, ?_⟩
  rcases hcases with ⟨-, hstate⟩ | ⟨hcompacts, -⟩
  · exact hstate
  · exact absurd hcompacts hcompact

end Calls

/-- There is no block of 1 GiB in 64 pages. -/
theorem allocate_complete_smallMap : ∃ p, PmmRun smallMap p [] ∧
    (p.allocate 3 18).1 = .none ∧ (p.caches 3).heads 18 = none ∧
    (∀ shard < SHARD_COUNT, p.lists 18 shard = none) ∧
    (p.allocate 3 18).2.regions = p.regions := by
  obtain ⟨p, hinit, hnone, hfew⟩ := exists_init smallMap (fun p => (p.allocate 3 18).1 = .none ∧
    p.countCall.allocCalls - p.countCall.compactLastAllocCall < 1024) (by decide +kernel)
  have hcompact : ¬ p.Compacts 3 18 := fun h => Nat.not_le.mpr hfew h.interval
  obtain ⟨hcache, hlists, -, -, hstate⟩ := allocate_complete (by decide) (Prod.ext hnone rfl) hcompact
  have hregions := congrArg Pmm.regions hstate
  exact ⟨p, .init hinit, hnone, hcache, hlists 18 (by decide) (by decide), hregions⟩

end Pmm

end BoruixKernel
