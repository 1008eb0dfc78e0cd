import BoruixKernel.Mm.MapperRefinement

/-!
# The use counters of page tables

A table's counter is meant to be its number of present entries, so that `unmap_page`
can free a table whose last entry goes away.  `get_next_table_by_index` counts a new
table on the table itself and not on the table that now points to it.  Along a run
the P4 therefore keeps the count zero and every other table counts its leaves and
itself (`CountsOk`), and the counters are right exactly as long as no table has been
created.
-/

namespace BoruixKernel

open PointerTrie List

/-- The counter of every table that can be reached is its number of present entries. -/
def CountsExact {σ : Type} (p4 : PhysAddr) (s : MmState σ) : Prop :=
  ∀ q t, tableOf s.tables p4 q = some t → tableCount s.counts t = some (s.tables t).usedCount

/-- The call freed, of the intermediate tables with an entry, those that lost the last. -/
def FreesEmptied {σ : Type} (p4 : PhysAddr) (e : MapEvent σ) : Prop :=
  ∀ q t, q ≠ [] → tableOf e.before.tables p4 q = some t →
    (e.before.tables t).usedCount ≠ 0 →
    (tableOf e.after.tables p4 q = none ↔ (e.after.tables t).usedCount = 0)

/-- The call maps while the allocator has no frame left, or it unmaps. -/
def MapEvent.Starved {σ : Type} (A : FrameAllocator σ) (e : MapEvent σ) : Prop :=
  ∀ page frame flags, e.call = .map page frame flags → (A.allocateFrame e.before.alloc).1 = none

theorem PageTable.usedCount_zero : PageTable.zero.usedCount = 0 := by
  simp [usedCount, zero]

section Counts

variable {σ : Type} {A : FrameAllocator σ} {p4 : PhysAddr} {s s' s₀ : MmState σ}

/-! ## Calls that create no table -/

variable {r : Except MapError (Option PhysAddr)}

/-- Under an empty P4 a starved call changes neither tables nor counters. -/
theorem performCall_starved (hzero : s.tables p4 = PageTable.zero)
    (hrun : performCall A p4 c s = (r.mapError .err, s'))
    (hstarved : MapEvent.Starved A ⟨s, c, r, s'⟩) :
    s'.tables = s.tables ∧ s'.counts = s.counts := by
  cases c with
  | map page frame flags =>
    rcases halloc : A.allocateFrame s.alloc with ⟨p, a⟩
    obtain rfl : p = none := by
      have h := hstarved page frame flags rfl
      rwa [halloc] at h
    have hnext : getNextTableByIndex A p4 page.p4Index s =
        (.error (.err .FrameAllocationFailed), { s with alloc := a }) := by
      simp [getNextTableByIndex, hzero, PageTable.zero, halloc]
    rw [performCall, mapPageInner, hnext] at hrun
    obtain ⟨-, rfl⟩ := Prod.mk.inj hrun
    exact ⟨rfl, rfl⟩
  | unmap page =>
    have hun : unmapPageInner A p4 page s = (.error (.err .PageNotMapped), s) := by
      simp [unmapPageInner, hzero, PageTable.zero]
    rw [performCall, hun] at hrun
    obtain ⟨-, rfl⟩ := Prod.mk.inj hrun
    exact ⟨rfl, rfl⟩

/-- A run of starved calls changes neither tables nor counters. -/
theorem MapRun.untouched (h0 : EmptyP4 A p4 s₀) (hrun : MapRun A p4 s₀ h s)
    (hstarved : ∀ e ∈ h, e.Starved A) :
    s.tables = s₀.tables ∧ s.counts = s₀.counts := by
  induction hrun with
  | nil => exact ⟨rfl, rfl⟩
  | @snoc h s c r s' _ _ hstep ih =>
    obtain ⟨htab, hcnt⟩ := ih fun e he => hstarved e (mem_append_left _ he)
    have hzero : s.tables p4 = PageTable.zero := by rw [htab, h0.zero]
    obtain ⟨htab', hcnt'⟩ := performCall_starved hzero hstep (hstarved _ (by simp))
    exact ⟨htab'.trans htab, hcnt'.trans hcnt⟩

/-- Before any table is created the counters are right. -/
theorem EmptyP4.countsExact (h0 : EmptyP4 A p4 s₀) (hsome : s₀.counts.isSome)
    (htab : s.tables = s₀.tables) (hcnt : s.counts = s₀.counts) : CountsExact p4 s := by
  obtain ⟨c, hc⟩ := Option.isSome_iff_exists.mp hsome
  obtain ⟨hlen, hroot, -⟩ := h0.counts c hc
  intro q t ht
  rw [htab, tableOf_of_zero h0.zero] at ht
  split at ht
  next =>
    cases ht
    rw [htab, hcnt, hc, tableCount, Option.bind_some, hlen, if_pos h0.below, hroot, h0.zero,
      PageTable.usedCount_zero]
  next => cases ht

/-! ## Calls that create one -/

/-- A table that has just been got is found there again. -/
theorem getNextTableByIndex_again (hrun : getNextTableByIndex A t i s = (.ok c, s')) :
    getNextTableByIndex A t i s' = (.ok c, s') := by
  unfold getNextTableByIndex at hrun
  dsimp only at hrun
  split at hrun
  next hp =>
    split at hrun
    next => cases hrun
    next hh =>
      cases hrun
      simp [getNextTableByIndex, hp, hh]
  next =>
    split at hrun
    next => cases hrun
    next phys a halloc =>
      have hframe := (A.allocate_some halloc).1
      split at hrun
      next => cases hrun
      next =>
        simp only [MmState.setAddr, hframe.isAligned, if_true, MapResult.andThen] at hrun
        cases hrun
        simp only [getNextTableByIndex, MmState.incCount, MmState.setEntry, set_self,
          PageTableEntry.present, PageTableEntry.huge, PageTableEntry.flags_pack hframe,
          PageTableEntry.addr_pack hframe]
        rfl

/-- A call that maps, under an empty P4 and with a frame to hand out, leaves a P3 table. -/
theorem performCall_creates (h : MapperInv A p4 s) (hzero : s.tables p4 = PageTable.zero)
    (hlt : frame.asU64.toNat < 2 ^ 52)
    (hrun : performCall A p4 (.map page frame flags) s = (r.mapError .err, s'))
    (hsome : (A.allocateFrame s.alloc).1 ≠ none) :
    ∃ p3, tableOf s'.tables p4 [page.p4Index] = some p3 := by
  rw [performCall] at hrun
  rcases hm : mapPageInner A p4 page frame flags s with ⟨res, s1⟩
  simp only [hm, Prod.mk.injEq] at hrun
  obtain ⟨hres, rfl⟩ := hrun
  rcases hn : getNextTableByIndex A p4 page.p4Index s with ⟨e | p3, s2⟩
  · -- Getting the P3 table can only have panicked, and then the call does not return.
    rw [mapPageInner, hn] at hm
    cases hm
    rcases halloc : A.allocateFrame s.alloc with ⟨_ | phys, a⟩
    · exact absurd (by rw [halloc]) hsome
    · have hal := (A.allocate_some halloc).1.isAligned
      simp only [getNextTableByIndex, hzero, PageTable.zero, PageTableEntry.new_present, halloc,
        MmState.setAddr, hal, if_true, MapResult.andThen, Bool.false_eq_true, if_false] at hn
      split at hn
      next =>
        cases hn
        cases r <;> cases hres
      next => cases hn
  · obtain ⟨hgrow, htab⟩ := getNextTableByIndex_spec h (q := []) rfl (by simp) hn
    replace htab := htab p3 rfl
    -- From here the call goes on as if the table had been there all along.
    have hm' : mapPageInner A p4 page frame flags s2 = (res, s1) := by
      rw [← hm, mapPageInner, mapPageInner, hn, getNextTableByIndex_again hn]
    rcases mapPageInner_spec hgrow.inv hlt hm' with ⟨-, -, hadd, -⟩ | ⟨-, hgrow'⟩
    · exact ⟨p3, hadd.kept _ _ htab⟩
    · exact ⟨p3, hgrow'.kept _ _ htab⟩

/-- With a P3 table the counter of the P4 is wrong. -/
theorem MapperInv.not_countsExact (h : MapperInv A p4 s)
    (h3 : tableOf s.tables p4 [i] = some p3) : ¬ CountsExact p4 s := by
  intro hexact
  have hroot := hexact [] p4 rfl
  obtain ⟨c, hc⟩ : ∃ c, s.counts = some c := by
    cases hc : s.counts with
    | none =>
      rw [hc] at hroot
      cases hroot
    | some c => exact ⟨c, rfl⟩
  have hcount : (s.tables p4).usedCount = 0 := by
    rw [hc, tableCount, Option.bind_some, (h.counts c hc).root] at hroot
    split at hroot
    next => exact (Option.some.inj hroot).symm
    next => cases hroot
  rw [← nil_append [i], tableOf_snoc] at h3
  have hp := (of_child h3).1
  rw [present_of_usedCount_eq_zero hcount] at hp
  cases hp

/-- The counters are exact after every call of a run, and empty tables are freed, exactly
when no call of the run creates a table: every `map_page` finds the allocator without a
frame. -/
theorem MapRun.countsExact_iff (h₀ : EmptyP4 A p4 s₀) (hsome : s₀.counts.isSome)
    {h : List (MapEvent σ)} (hrun : MapRun A p4 s₀ h s) :
    (∀ e ∈ h, CountsExact p4 e.after ∧ FreesEmptied p4 e) ↔ ∀ e ∈ h, e.Starved A := by
  constructor
  · intro hexact
    induction hrun with
    | nil => simp
    | @snoc h s c r s' hrun hc hstep ih =>
      have hstarved := ih fun e he => hexact e (mem_append_left _ he)
      intro e he
      rcases mem_append.mp he with he | he
      · exact hstarved e he
      obtain rfl := mem_singleton.mp he
      rintro page frame flags rfl
      by_contra hframe
      obtain ⟨hinv, hM, -⟩ := hrun.refines h₀
      have hzero : s.tables p4 = PageTable.zero := by
        rw [(hrun.untouched h₀ hstarved).1, h₀.zero]
      obtain ⟨p3, h3⟩ := performCall_creates hinv hzero hc.2.2 hstep hframe
      have hinv' := (performCall_spec hinv hM hc hstep).1
      exact hinv'.not_countsExact h3 (hexact _ (mem_append_right _ he)).1
  · intro hstarved
    induction hrun with
    | nil => simp
    | @snoc h s c r s' hrun hc hstep ih =>
      have hpre := fun e he => hstarved e (mem_append_left _ he)
      intro e he
      rcases mem_append.mp he with he | he
      · exact ih hpre e he
      obtain rfl := mem_singleton.mp he
      obtain ⟨htab, hcnt⟩ := (hrun.snoc hc hstep).untouched h₀ hstarved
      refine ⟨h₀.countsExact hsome htab hcnt, fun q t hne ht => ?_⟩
      rw [(hrun.untouched h₀ hpre).1, tableOf_of_zero h₀.zero, if_neg hne] at ht
      cases ht

end Counts

/-- The start with no frame left to hand out. -/
def bumpFull : MmState BumpState := { bumpStart with alloc := ⟨1024, [.ofPfn 1], by decide⟩ }

theorem bumpFull_emptyP4 : EmptyP4 bumpAllocator (.ofPfn 1) bumpFull where
  frame := by decide
  below := by decide
  held := mem_singleton.mpr rfl
  zero := rfl
  offset := rfl
  counts := by
    rintro c ⟨⟩
    exact ⟨rfl, rfl, fun _ _ _ => rfl⟩

/-- With no frame to hand out, a `map_page` call fails and the counters stay exact. -/
theorem countsExact_bumpFull :
    CountsExact (.ofPfn 1) (performCall bumpAllocator (.ofPfn 1) userPage bumpFull).2 := by
  have hresult : (performCall bumpAllocator (.ofPfn 1) userPage bumpFull).1 =
      Except.mapError .err (.error .FrameAllocationFailed) := rfl
  have hrun := MapRun.single userPage_wellFormed hresult
  refine ((MapRun.countsExact_iff bumpFull_emptyP4 rfl hrun).mpr ?_ _
    (mem_singleton.mpr rfl)).1
  rintro e he page frame flags -
  obtain rfl := mem_singleton.mp he
  rfl

/-- After one `map_page` the P4 has an entry and the count zero.  When the page is unmapped
again its P1 table is empty and stays. -/
theorem userPage_not_countsExact :
    EmptyP4 bumpAllocator (.ofPfn 1) bumpStart ∧
      MapRun bumpAllocator (.ofPfn 1) bumpStart
        [⟨bumpStart, userPage, .ok none, bumpAfter userPage⟩] (bumpAfter userPage) ∧
      ¬ CountsExact (.ofPfn 1) (bumpAfter userPage) ∧
      let s := (performCall bumpAllocator (.ofPfn 1) (.unmap ⟨0x400000⟩) (bumpAfter userPage)).2
      tableOf s.tables (.ofPfn 1) [0, 0, 2] = some (.ofPfn 4) ∧
        (s.tables (.ofPfn 4)).usedCount = 0 := by
  refine ⟨bumpStart_emptyP4, userPage_run, fun h => ?_, by decide +kernel, by decide +kernel⟩
  have hroot := h [] (.ofPfn 1) rfl
  revert hroot
  decide +kernel

end BoruixKernel
