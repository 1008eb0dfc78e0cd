import BoruixKernel.Mm.AddressSpace
import BoruixKernel.Mm.RmapAgreement

/-!
# Migrating a user page

`migrate_one_user_page` takes some user mapping from the reverse map, copies its frame to
a new one, maps the page there and frees the old frame.

Unmapping may free tables on the way to the page, and mapping it again then needs as many
new ones.  `Walk` says how far the tables reach and that the allocator has enough frames
for the rest, so that mapping the page again cannot fail and leaves as many frames
allocated as before.  What the migration does to the address spaces is that of the two
calls (`SpaceStep`).

The frame is allocated before `PHYS_OFFSET` is looked at, and a call that finds it unset
does not give the frame back.
-/

namespace BoruixKernel

open PointerTrie List PageTableEntry

/-! ## Counting frames -/

/-- A frame allocator that counts its frames and hands returned ones out again. -/
structure PageAllocator (σ : Type) extends FrameAllocator σ where
  /-- `allocated_frames`. -/
  allocatedFrames : σ → Nat
  /-- The metadata of a frame have the state `Allocated` and the flag `BF_MIGRATABLE`. -/
  movable : σ → Nat → Bool
  /-- A number of requests that are sure to succeed. -/
  available : σ → Nat
  count_some : ∀ {a a' p}, allocateFrame a = (some p, a') →
    allocatedFrames a' = allocatedFrames a + 1 ∧ available a ≤ available a' + 1
  count_none : ∀ {a a'}, allocateFrame a = (none, a') →
    allocatedFrames a' = allocatedFrames a ∧ available a = 0
  count_deallocate : ∀ {a p}, p ∈ held a →
    allocatedFrames (deallocateFrame a p) + 1 = allocatedFrames a ∧
      available a + 1 ≤ available (deallocateFrame a p)

section Migrate

variable {σ : Type} (A : PageAllocator σ)

def migrateOneUserPage (s : MmState σ) : MapResult σ Bool :=
  match rmapAny s.rmap with
  | none => (.ok false, s)
  | some (oldPhys, entry) =>
    if oldPhys.pfn ≥ A.totalFrames then (.ok false, s)
    else if !A.movable s.alloc oldPhys.pfn then (.ok false, s)
    else
      match A.allocateFrame s.alloc with
      | (none, a) => (.ok false, { s with alloc := a })
      | (some newPhys, a) =>
        let s := { s with alloc := a }
        -- `mapper_for_p4` below fails only if `PHYS_OFFSET` is not set.
        if s.physOffset.isNone then (.ok false, s)
        else
          let s := s.copyFrame oldPhys newPhys
          match migratePageNolock A.toFrameAllocator entry.p4Phys entry.vaddr newPhys entry.flags s with
          | (.ok old, s) => (.ok true, s.release A.toFrameAllocator old)
          | (.error (.err _), s) => (.ok false, s.release A.toFrameAllocator newPhys)
          | (.error (.panic msg), s) => (.error (.panic msg), s)

end Migrate

/-! ## The tables on the way to a page -/

/-- The indices of an address, one for each level. -/
def VirtAddr.indices (v : VirtAddr) : List (Fin 512) := [v.p4Index, v.p3Index, v.p2Index, v.p1Index]

/-- The tables on the way to a page reach down to depth `d`, where the entry is clear, the
tables below it can be allocated, and with them `n` frames are allocated. -/
structure Walk {σ : Type} (A : PageAllocator σ) (p4 : PhysAddr) (page : VirtAddr) (n : Nat)
    (s : MmState σ) (d : Nat) : Prop where
  inv : MapperInv A.toFrameAllocator p4 s
  /-- The mapper does not follow an entry of the P4 that is marked as a huge page. -/
  root : (s.tables p4 page.p4Index).huge = false
  ends : ∃ t i, tableOf s.tables p4 (page.indices.take d) = some t ∧
    page.indices[d]? = some i ∧ s.tables t i = .new
  stock : 3 ≤ A.available s.alloc + d
  count : A.allocatedFrames s.alloc + 3 = n + d

section Walk

variable {A : PageAllocator σ} {p4 t c : PhysAddr} {page : VirtAddr}

theorem lt_of_indices (hi : page.indices[j]? = some i) : j < 4 :=
  (List.getElem?_eq_some_iff.mp hi).1

theorem take_succ_indices (hi : page.indices[j]? = some i) :
    page.indices.take (j + 1) = page.indices.take j ++ [i] := by
  rw [take_add_one, hi]
  rfl

theorem length_take_indices (hi : page.indices[j]? = some i) :
    (page.indices.take j).length = j := by
  have := lt_of_indices hi
  rw [length_take]
  exact Nat.min_eq_left (by simpa [VirtAddr.indices] using this.le)

variable (page) in
/-- A table above one that exists exists. -/
theorem tableOf_take (hjd : j ≤ d) (h : tableOf T p4 (page.indices.take d) = some t) :
    ∃ c, tableOf T p4 (page.indices.take j) = some c := by
  obtain ⟨r, hr⟩ : page.indices.take j <+: page.indices.take d := take_prefix_take_left hjd
  cases hc : tableOf T p4 (page.indices.take j) with
  | some c => exact ⟨c, rfl⟩
  | none =>
    rw [← hr, tableOf, tableAt_eq_none_of_append _ hc] at h
    cases h

/-- Below the P4, an entry with a table under it is not marked as a huge page. -/
theorem huge_of_child (hc : tableFormat.child (j + 1) e = some c) : e.huge = false := by
  rcases j with _ | _ | j <;>
    simp only [tableFormat, Option.ite_none_right_eq_some, Bool.and_eq_true, Bool.not_eq_true',
      reduceCtorEq] at hc
  · exact hc.1.2
  · exact hc.1.2

theorem Walk.not_huge (h : Walk A p4 page n s d)
    (hq : tableOf s.tables p4 (page.indices.take j) = some t) (hi : page.indices[j]? = some i)
    (hc : tableFormat.child j (s.tables t i) = some c) : (s.tables t i).huge = false := by
  cases j with
  | zero =>
    cases hi
    cases hq
    exact h.root
  | succ j => exact huge_of_child hc

theorem huge_link (hc : c.Frame) : (PageTableEntry.pack c linkFlags).huge = false := by
  rw [PageTableEntry.huge, flags_pack hc]
  decide

/-- Getting the next table on the way, from the allocator if the tables end there. -/
theorem Walk.getNextTable (h : Walk A p4 page n s d) (hjd : j ≤ d) (hj : j < 3)
    (hq : tableOf s.tables p4 (page.indices.take j) = some t) (hi : page.indices[j]? = some i)
    (hrun : getNextTableByIndex A.toFrameAllocator t i s = (r, s')) :
    (∃ msg, r = .error (.panic msg)) ∨ ∃ c d', r = .ok c ∧ Walk A p4 page n s' d' ∧ j + 1 ≤ d' ∧
      tableOf s'.tables p4 (page.indices.take (j + 1)) = some c := by
  have hlen := length_take_indices hi
  have htake := take_succ_indices hi
  obtain ⟨u, k, hu, hk, hnew⟩ := h.ends
  unfold getNextTableByIndex at hrun
  simp only at hrun
  rcases Nat.lt_or_eq_of_le hjd with hlt | rfl
  · -- The table exists.
    obtain ⟨c, hc⟩ := tableOf_take _ hlt hu
    have hchild : tableFormat.child j (s.tables t i) = some c := by
      rwa [htake, tableOf_snoc, hq, Option.bind_some, hlen] at hc
    rw [if_pos (of_child hchild).1, if_neg (by simp [h.not_huge hq hi hchild])] at hrun
    cases hrun
    rw [(of_child hchild).2]
    exact .inr ⟨c, d, rfl, h, hlt, hc⟩
  · -- It is allocated, and the walk ends in it.
    obtain rfl : k = i := Option.some.inj (hk.symm.trans hi)
    obtain rfl : u = t := Option.some.inj (hu.symm.trans hq)
    have habsent : (s.tables u k).present = false := by rw [hnew, new_present]
    rw [if_neg (by simp [habsent])] at hrun
    have hstock := h.stock
    rcases halloc : A.allocateFrame s.alloc with ⟨_ | phys, a⟩
    · have := (A.count_none halloc).2
      omega
    obtain ⟨hframe, -, hfresh, -⟩ := A.allocate_some halloc
    obtain ⟨hcount, havail⟩ := A.count_some halloc
    rw [halloc] at hrun
    simp only at hrun
    split at hrun
    · cases hrun
      exact .inl ⟨_, rfl⟩
    simp only [MmState.setAddr, hframe.isAligned, if_true, MapResult.andThen] at hrun
    cases hrun
    obtain ⟨hinv, -, htab⟩ := h.inv.grow hq (by omega) habsent halloc
    have htable := (htab (page.indices.take (j + 1))).trans (if_pos htake)
    have hne : phys ≠ u := by
      rintro rfl
      exact hfresh (h.inv.held _ _ hq)
    have hroot : phys ≠ p4 := by
      rintro rfl
      exact hfresh (h.inv.held [] _ rfl)
    have hlast : j + 1 < page.indices.length := Nat.succ_lt_succ hj
    refine .inr ⟨phys, j + 1, rfl, ⟨hinv, ?_, ⟨phys, _, htable, getElem?_eq_getElem hlast, ?_⟩,
      ?_, ?_⟩, le_rfl, htable⟩
    · simp only [MmState.incCount, MmState.setEntry, MmState.zeroFrame, set_apply]
      split
      · exact huge_link hframe
      · rw [Function.update_of_ne hroot.symm]
        exact h.root
    · simp only [MmState.incCount, MmState.setEntry, MmState.zeroFrame, set_apply]
      rw [if_neg fun hc => hne hc.1, Function.update_self]
      rfl
    · change 3 ≤ A.available a + (j + 1)
      omega
    · change A.allocatedFrames a + 3 = n + (j + 1)
      have := h.count
      omega

theorem Walk.mapPage (h : Walk A p4 page n s d) {frame : PhysAddr}
    {flags : PageTableFlags} (hhuge : flags.contains .HUGE_PAGE = false)
    {r : Except MapFault Unit}
    (hrun : mapPageInner A.toFrameAllocator p4 page frame flags s = (r, s')) :
    (∃ msg, r = .error (.panic msg)) ∨ r = .ok () ∧ A.allocatedFrames s'.alloc = n := by
  unfold mapPageInner at hrun
  simp only [hhuge, Bool.false_and, Bool.false_eq_true, if_false] at hrun
  rcases h3 : getNextTableByIndex A.toFrameAllocator p4 page.p4Index s with ⟨r3, s3⟩
  rw [h3] at hrun
  rcases h.getNextTable (j := 0) (Nat.zero_le d) (by decide) rfl rfl h3 with
    ⟨msg, rfl⟩ | ⟨p3, d3, rfl, hw3, hd3, hq3⟩
  · cases hrun
    exact .inl ⟨msg, rfl⟩
  simp only [MapResult.andThen] at hrun
  rcases h2 : getNextTableByIndex A.toFrameAllocator p3 page.p3Index s3 with ⟨r2, s2⟩
  rw [h2] at hrun
  rcases hw3.getNextTable (j := 1) hd3 (by decide) hq3 rfl h2 with
    ⟨msg, rfl⟩ | ⟨p2, d2, rfl, hw2, hd2, hq2⟩
  · cases hrun
    exact .inl ⟨msg, rfl⟩
  simp only at hrun
  rcases h1 : getNextTableByIndex A.toFrameAllocator p2 page.p2Index s2 with ⟨r1, s1⟩
  rw [h1] at hrun
  rcases hw2.getNextTable (j := 2) hd2 (by decide) hq2 rfl h1 with
    ⟨msg, rfl⟩ | ⟨p1, d1, rfl, hw1, hd1, hq1⟩
  · cases hrun
    exact .inl ⟨msg, rfl⟩
  -- All tables exist, and the walk ends in the last one.
  obtain ⟨t, i, ht, hi, hnew⟩ := hw1.ends
  have hd := lt_of_indices hi
  obtain rfl : d1 = 3 := by omega
  obtain rfl : t = p1 := Option.some.inj (ht.symm.trans hq1)
  cases hi
  have hunused : (s1.tables t page.p1Index).isUnused = true := by
    rw [hnew]
    rfl
  have hcount : A.allocatedFrames s1.alloc = n := Nat.add_right_cancel hw1.count
  simp only [hunused, Bool.not_true, Bool.false_eq_true, if_false] at hrun
  unfold MmState.setAddr at hrun
  by_cases halign : frame.isAligned 4096 = true
  · rw [if_pos halign] at hrun
    simp only at hrun
    split at hrun <;>
    · cases hrun
      exact .inr ⟨rfl, hcount⟩
  · rw [if_neg halign] at hrun
    cases hrun
    exact .inl ⟨_, rfl⟩

/-- Reclaiming the table at the end of the walk, if it is empty. -/
theorem Walk.reclaimTable (h : Walk A p4 page n s (d + 1)) (hi : page.indices[d]? = some i)
    (hq : tableOf s.tables p4 (page.indices.take d) = some t)
    (hc : tableOf s.tables p4 (page.indices.take (d + 1)) = some c) {next : MmState σ → MmState σ}
    (hnext : ∀ s1, Walk A p4 page n s1 d →
      (∀ j ≤ d, tableOf s1.tables p4 (page.indices.take j) =
        tableOf s.tables p4 (page.indices.take j)) → ∃ d', Walk A p4 page n (next s1) d') :
    ∃ d', Walk A p4 page n (reclaimTable A.toFrameAllocator t i c next s) d' := by
  unfold BoruixKernel.reclaimTable
  split
  next hempty =>
    have htake := take_succ_indices hi
    have hlen := length_take_indices hi
    rw [htake] at hc
    obtain ⟨hnone, hblank⟩ := h.inv.of_tableEmpty (by simp) hc hempty
    have hchild : tableFormat.child (page.indices.take d).length (s.tables t i) = some c := by
      rwa [tableOf_snoc, hq, Option.bind_some] at hc
    obtain ⟨hinv, -, htab⟩ := h.inv.prune hnone hq hchild hblank
    obtain ⟨hcount, havail⟩ := A.count_deallocate (h.inv.held _ c hc)
    have hkeep : ∀ j ≤ d, tableOf _ p4 (page.indices.take j) = _ := fun j hj =>
      (htab (page.indices.take j)).trans (if_neg fun heq => by
        have hle := congrArg List.length heq
        rw [length_append, hlen, length_take] at hle
        simp only [length_cons, length_nil] at hle
        omega)
    simp only [(of_child hchild).2]
    refine hnext _ ⟨hinv, ?_, ⟨t, i, (hkeep d le_rfl).trans hq, hi, ?_⟩, ?_, ?_⟩ hkeep
    · simp only [MmState.decCount, MmState.setEntry, set_apply]
      split
      · rfl
      · exact h.root
    · simp [MmState.decCount, MmState.setEntry]
    · change 3 ≤ A.available (A.deallocateFrame s.alloc c) + d
      have := h.stock
      omega
    · change A.allocatedFrames (A.deallocateFrame s.alloc c) + 3 = n + d
      have := h.count
      omega
  next => exact ⟨_, h⟩

/-- Unmapping a page of 4 KiB. -/
theorem walk_unmapPage (h : MapperInv A.toFrameAllocator p4 s)
    (hroot : (s.tables p4 page.p4Index).huge = false)
    (hleaf : pageLeaf s.tables p4 .small page = some e)
    (hrun : unmapPageInner A.toFrameAllocator p4 page s = (r, s')) :
    r = .ok e.addr ∧ ∃ d, Walk A p4 page (A.allocatedFrames s.alloc) s' d := by
  obtain ⟨p1, hq1, rfl, hpresent⟩ := leafOf_eq_some.mp hleaf
  obtain ⟨p2, hq2⟩ := tableOf_take page (j := 2) (d := 3) (by decide) hq1
  obtain ⟨p3, hq3⟩ := tableOf_take page (j := 1) (d := 2) (by decide) hq2
  have hchild : ∀ {j t i c}, page.indices[j]? = some i →
      tableOf s.tables p4 (page.indices.take j) = some t →
      tableOf s.tables p4 (page.indices.take (j + 1)) = some c →
      tableFormat.child j (s.tables t i) = some c := by
    intro j t i c hi ht hc
    rwa [take_succ_indices hi, tableOf_snoc, ht, Option.bind_some, length_take_indices hi] at hc
  have hc3 := hchild (j := 0) rfl rfl hq3
  have hc2 := hchild (j := 1) rfl hq3 hq2
  have hc1 := hchild (j := 2) rfl hq2 hq1
  -- Clearing the leaf.
  have hne : p4 ≠ p1 := by
    rintro rfl
    cases h.separate _ [] p4 hq1 rfl
  obtain ⟨hclear, htab⟩ := h.leafCleared hq1 hpresent
  have hend : ∀ m, Walk A p4 page (A.allocatedFrames s.alloc)
      { (s.setEntry p1 page.p1Index .new).decCount p1 with rmap := m } 3 := by
    refine fun m => ⟨(hclear.with_rmap m).inv, ?_, ⟨p1, page.p1Index, (htab _).trans hq1, rfl, ?_⟩,
      by omega, rfl⟩
    · simp only [MmState.decCount, MmState.setEntry, set_apply]
      rwa [if_neg fun hc => hne hc.1]
    · simp [MmState.decCount, MmState.setEntry]
  have hrecord : ∃ m, (if (s.tables p1 page.p1Index).flags.contains .USER_ACCESSIBLE = true then
      { (s.setEntry p1 page.p1Index .new).decCount p1 with
        rmap := rmapRemove ((s.setEntry p1 page.p1Index .new).decCount p1).rmap
          (s.tables p1 page.p1Index).addr p4 page }
      else (s.setEntry p1 page.p1Index .new).decCount p1) =
        { (s.setEntry p1 page.p1Index .new).decCount p1 with rmap := m } := by
    split
    · exact ⟨_, rfl⟩
    · exact ⟨_, rfl⟩
  obtain ⟨m, hm⟩ := hrecord
  have hp1 : (s.tables p1 page.p1Index).present = true := hpresent
  unfold unmapPageInner at hrun
  simp only [(of_child hc3).1, (of_child hc3).2, (of_child hc2).1, (of_child hc2).2,
    (of_child hc1).1, (of_child hc1).2, huge_of_child hc2, huge_of_child hc1, hp1, hm, Bool.not_true,
    Bool.false_eq_true, if_false] at hrun
  cases hrun
  refine ⟨rfl, (hend m).reclaimTable (d := 2) rfl ((htab _).trans hq2) ((htab _).trans hq1) ?_⟩
  intro s2 hw2 hkeep2
  have hq2' := (hkeep2 2 le_rfl).trans ((htab _).trans hq2)
  have hq3' := (hkeep2 1 (by decide)).trans ((htab _).trans hq3)
  refine hw2.reclaimTable (d := 1) rfl hq3' hq2' fun s3 hw3 hkeep3 => ?_
  exact hw3.reclaimTable (d := 0) rfl rfl ((hkeep3 1 le_rfl).trans hq3') fun s4 hw4 _ => ⟨0, hw4⟩

end Walk

/-! ## Migration -/

/-- Address spaces with user pages, each on a frame of its own. -/
structure UserFrames {σ : Type} (A : FrameAllocator σ) (U : Fin 512 → Bool) (K P : Set PhysAddr)
    (s : MmState σ) : Prop extends SpacesInv A U K P s where
  agrees : RmapAgrees P s
  /-- No entry of a P4 is marked as a huge page. -/
  links : ∀ p4 ∈ P, ∀ i, U i = true → (s.tables p4 i).huge = false
  /-- User pages are in the private part, on frames that are in use, and not as tables. -/
  used : ∀ p4 ∈ P, ∀ v : VirtAddr, v.IsPage → ∀ f, UserLeaf s.tables p4 v f →
    U v.p4Index = true ∧ f ∈ A.held s.alloc ∧ ∀ p4' ∈ P, ∀ q, tableOf s.tables p4' q ≠ some f
  /-- A user frame is mapped once. -/
  once : ∀ p4 ∈ P, ∀ p4' ∈ P, ∀ v v' : VirtAddr, v.IsPage → v'.IsPage → ∀ f,
    UserLeaf s.tables p4 v f → UserLeaf s.tables p4' v' f → p4' = p4 ∧ v' = v

section Effect

variable {σ : Type} {A : PageAllocator σ} {U : Fin 512 → Bool} {K P : Set PhysAddr}
  {p4 new : PhysAddr} {page : VirtAddr} {flags : PageTableFlags} {s s' : MmState σ}

/-- Migrating a page that is mapped succeeds, and as many frames are allocated as before. -/
theorem migratePageNolock_cases (h : MapperInv A.toFrameAllocator p4 (s.priv U p4))
    (hU : U page.p4Index = true) (hroot : (s.tables p4 page.p4Index).huge = false)
    (hleaf : pageLeaf s.tables p4 .small page = some e)
    (hhuge : flags.contains .HUGE_PAGE = false)
    (hrun : migratePageNolock A.toFrameAllocator p4 page new flags s = (r, s')) :
    (∃ msg, r = .error (.panic msg)) ∨
      r = .ok e.addr ∧ A.allocatedFrames s'.alloc = A.allocatedFrames s.alloc ∧
      ∃ s1, unmapPageInner A.toFrameAllocator p4 page s = (.ok e.addr, s1) ∧
        mapPageInner A.toFrameAllocator p4 page new flags s1 = (.ok (), s') := by
  unfold migratePageNolock at hrun
  rcases hun : unmapPageInner A.toFrameAllocator p4 page s with ⟨r1, s1⟩
  rw [hun] at hrun
  -- The same calls on the private part.
  have hun' : unmapPageInner A.toFrameAllocator p4 page (s.priv U p4) = (r1, s1.priv U p4) := by
    rw [unmapPageInner_shade h hU, hun]
    rfl
  obtain ⟨rfl, d, hwalk⟩ := walk_unmapPage h (by rwa [shade_entry fun _ => hU])
    ((pageLeaf_priv h hU .small).trans hleaf) hun'
  rcases hmap : mapPageInner A.toFrameAllocator p4 page new flags s1 with ⟨r2, s2⟩
  have hmap' : mapPageInner A.toFrameAllocator p4 page new flags (s1.priv U p4) =
      (r2, s2.priv U p4) := by
    rw [mapPageInner_shade hwalk.inv hU, hmap]
    rfl
  simp only [MapResult.andThen, hmap] at hrun
  rcases hwalk.mapPage hhuge hmap' with ⟨msg, rfl⟩ | ⟨rfl, hcount⟩
  · cases hrun
    exact .inl ⟨msg, rfl⟩
  · cases hrun
    exact .inr ⟨rfl, hcount, s1, rfl, hmap⟩

/-- What a migration changes: one leaf and one entry of the reverse map. -/
structure Migrated (A : FrameAllocator σ) (U : Fin 512 → Bool) (P : Set PhysAddr) (p4 : PhysAddr)
    (page : VirtAddr) (new : PhysAddr) (flags : PageTableFlags) (s s' : MmState σ) : Prop where
  leaves : ∀ p4' ∈ P, ∀ v : VirtAddr, v.Canonical → ∀ l, pageLeaf s'.tables p4' l v =
    if p4' = p4 ∧ l = .small ∧ v.asU64.toNat / 4096 = page.asU64.toNat / 4096 then
      some (.pack new (flags ||| .PRESENT))
    else pageLeaf s.tables p4' l v
  framed : new.Frame
  recorded : flags.contains .USER_ACCESSIBLE = true →
    ⟨p4, page, flags⟩ ∈ rmapLookup s'.rmap new
  /-- Frames in use that are no tables keep their contents. -/
  outside : ∀ f, Outside A p4 (s.priv U p4) f → s'.tables f = s.tables f ∧ f ∈ A.held s'.alloc

theorem SpacesInv.migrated (h : SpacesInv A.toFrameAllocator U K P s) (hp4 : p4 ∈ P)
    (hpage : page.Canonical) (hU : U page.p4Index = true)
    (hleaf : pageLeaf s.tables p4 .small page = some e) (hhuge : flags.contains .HUGE_PAGE = false)
    (hlt : new.asU64.toNat < 2 ^ 52)
    (hun : unmapPageInner A.toFrameAllocator p4 page s = (.ok e.addr, s1))
    (hmap : mapPageInner A.toFrameAllocator p4 page new flags s1 = (.ok (), s')) :
    Migrated A.toFrameAllocator U P p4 page new flags s s' := by
  obtain ⟨hs1, ⟨l, e', -, hclear, -⟩ | ⟨hno, -⟩⟩ := unmapPageInner_space (h.each p4 hp4) hU hun
  rotate_left
  · cases hno
  -- The page is one of 4 KiB.
  obtain rfl : l = .small :=
    pageLeaf_unique ((pageLeaf_priv (h.each p4 hp4) hU l).symm.trans hclear.mapped) hleaf
  have h1 := h.step hp4 hs1
  obtain ⟨hs', hcases⟩ := mapPageInner_space (h1.each p4 hp4) hU hlt hmap
  have hl : selectLevel page new flags = .small := selectLevel_small hhuge
  rw [hl] at hcases
  rcases hcases with ⟨-, -, hadd, hrmap⟩ | ⟨⟨_, hno⟩, -⟩
  rotate_left
  · cases hno
  refine ⟨fun p4' hp4' v hv l => ?_, hadd.framed, fun huser => ?_, fun f hf => ?_⟩
  · rw [h1.pageLeaf_step hp4 hs' hpage hU hadd.leaves hp4' hv,
      h.pageLeaf_step hp4 hs1 hpage hU hclear.leaves hp4' hv,
      show PageLevel.small.size = 4096 from rfl]
    by_cases hc : p4' = p4 ∧ l = .small ∧ v.asU64.toNat / 4096 = page.asU64.toNat / 4096
    · rw [if_pos hc, if_pos hc]
      rfl
    · rw [if_neg hc, if_neg hc, if_neg hc]
  · rw [hrmap, PageLevel.record, if_pos ⟨rfl, huser⟩, rmapLookup_rmapAdd, if_pos rfl]
    exact mem_append_right _ (mem_singleton.mpr rfl)
  · have hf1 := hs1.rest hf
    have hf' := hs'.rest (hs1.toLocalStep.still hf)
    exact ⟨hf'.1.trans hf1.1, hf'.2.1⟩

end Effect

/-! ## Transparency -/

section Transparent

variable {σ : Type} (A : PageAllocator σ) (P : Set PhysAddr) (s s' : MmState σ)

/-- One user page is on another frame with the same contents and flags, and nothing else
has changed. -/
structure Moved (p4 : PhysAddr) (page : VirtAddr) (flags : PageTableFlags) (old new : PhysAddr) :
    Prop where
  entry : ⟨p4, page, flags⟩ ∈ rmapLookup s.rmap old ∧ UserLeaf s.tables p4 page old
  changed : new ≠ old
  moved : ⟨p4, page, flags⟩ ∈ rmapLookup s'.rmap new ∧ UserLeaf s'.tables p4 page new
  bytes : s'.tables new = s.tables old
  others : ∀ p4' ∈ P, ∀ v : VirtAddr, v.Canonical →
    ¬ (p4' = p4 ∧ v.asU64.toNat / 4096 = page.asU64.toNat / 4096) →
    OffsetMapper.translate s'.tables p4' v = OffsetMapper.translate s.tables p4' v
  agrees : RmapAgrees P s'
  /-- The old frame, which is freed, is not mapped any more. -/
  freed : ∀ p4' ∈ P, ∀ v : VirtAddr, v.IsPage → ¬ UserLeaf s'.tables p4' v old
  count : A.allocatedFrames s'.alloc = A.allocatedFrames s.alloc

structure Unmoved : Prop where
  others : ∀ p4 ∈ P, ∀ v : VirtAddr, v.Canonical →
    OffsetMapper.translate s'.tables p4 v = OffsetMapper.translate s.tables p4 v
  rmap : s'.rmap = s.rmap
  count : A.allocatedFrames s'.alloc = A.allocatedFrames s.alloc

/-- A call that returned `moved` was transparent. -/
def Transparent (moved : Bool) : Prop :=
  if moved then ∃ p4 ∈ P, ∃ page : VirtAddr, page.IsPage ∧ ∃ flags old new,
    Moved A P s s' p4 page flags old new
  else Unmoved A P s s'

/-- There is a frame to be moved, and a frame to move it to. -/
def TakesFrame : Prop :=
  ∃ old entry new a, rmapAny s.rmap = some (old, entry) ∧ old.pfn < A.totalFrames ∧
    A.movable s.alloc old.pfn = true ∧ A.allocateFrame s.alloc = (some new, a)

variable {A P s s'} {U : Fin 512 → Bool} {K : Set PhysAddr}

/-- A call that takes no frame changes nothing. -/
theorem migrateOneUserPage_early (h : ¬ TakesFrame A s) :
    ∃ a, migrateOneUserPage A s = (.ok false, { s with alloc := a }) ∧
      A.allocatedFrames a = A.allocatedFrames s.alloc := by
  unfold migrateOneUserPage
  split
  · exact ⟨s.alloc, rfl, rfl⟩
  next old entry hany =>
  split
  · exact ⟨s.alloc, rfl, rfl⟩
  next hpfn =>
  split
  · exact ⟨s.alloc, rfl, rfl⟩
  next hmovable =>
  split
  next a halloc => exact ⟨a, rfl, (A.count_none halloc).1⟩
  next new a halloc =>
    exact absurd ⟨old, entry, new, a, hany, by omega, by simpa using hmovable, halloc⟩ h

/-- A call that has taken a frame and finds no offset keeps the frame. -/
theorem migrateOneUserPage_leak (h : TakesFrame A s) (hoffset : s.physOffset = none) :
    ∃ a, migrateOneUserPage A s = (.ok false, { s with alloc := a }) ∧
      A.allocatedFrames a = A.allocatedFrames s.alloc + 1 := by
  obtain ⟨old, entry, new, a, hany, hpfn, hmovable, halloc⟩ := h
  refine ⟨a, ?_, (A.count_some halloc).1⟩
  simp [migrateOneUserPage, hany, Nat.not_le.mpr hpfn, hmovable, halloc, hoffset]

/-- A user page is moved. -/
theorem UserFrames.moved (h : UserFrames A.toFrameAllocator U K P s) {old new : PhysAddr}
    {entry : RmapEntry} {a : σ} (hany : rmapAny s.rmap = some (old, entry))
    (halloc : A.allocateFrame s.alloc = (some new, a))
    (hrun : migratePageNolock A.toFrameAllocator entry.p4Phys entry.vaddr new entry.flags
      (({ s with alloc := a } : MmState σ).copyFrame old new) = (r, s')) :
    (∃ msg, r = .error (.panic msg)) ∨ r = .ok old ∧ entry.p4Phys ∈ P ∧ entry.vaddr.IsPage ∧
      Moved A P s (s'.release A.toFrameAllocator old) entry.p4Phys entry.vaddr entry.flags old new := by
  obtain ⟨p4, page, flags⟩ := entry
  have hentry := mem_of_rmapAny hany
  obtain ⟨hp4, hpage⟩ := h.agrees.known old _ hentry
  have huser := (h.agrees.leaf_iff p4 hp4 page hpage old).mp ⟨_, hentry, rfl⟩
  obtain ⟨hU, hheld, hnotable⟩ := h.used p4 hp4 page hpage old huser
  obtain ⟨e, hleaf, hcontains, rfl⟩ := huser
  obtain ⟨-, huserflag, hhuge⟩ := h.agrees.flags _ _ hentry e hleaf
  obtain ⟨hframe, -, hfresh, hinsert⟩ := A.allocate_some halloc
  obtain ⟨hcount0, -⟩ := A.count_some halloc
  -- Copying the frame leaves the address spaces alone.
  let s₀ := ({ s with alloc := a } : MmState σ).copyFrame e.addr new
  have hrow : ∀ t, TableFrame U K P s t → s₀.tables t = s.tables t := by
    intro t ht
    refine Function.update_of_ne ?_ _ _
    rintro rfl
    exact hfresh (h.toSpacesInv.tableFrame_held ht)
  have hmore : A.held s.alloc ⊆ A.held s₀.alloc := by
    rw [show A.held s₀.alloc = _ from hinsert]
    exact Set.subset_insert _ _
  have h0 : SpacesInv A.toFrameAllocator U K P s₀ := h.toSpacesInv.fill hrow hmore rfl
  have hleaves0 : ∀ p4' ∈ P, ∀ l v, pageLeaf s₀.tables p4' l v = pageLeaf s.tables p4' l v :=
    fun p4' hp4' l v => h.toSpacesInv.fill_leaves hrow hp4' _ _
  have hagrees0 : RmapAgrees P s₀ := h.agrees.congr rfl fun p4' hp4' v _ => hleaves0 p4' hp4' _ v
  have hroot0 : (s₀.tables p4 page.p4Index).huge = false := by
    rw [hrow p4 (.inr ⟨p4, hp4, [], rfl⟩)]
    exact h.links p4 hp4 _ hU
  have hleaf0 := (hleaves0 p4 hp4 .small page).trans hleaf
  rcases migratePageNolock_cases (h0.each p4 hp4) hU hroot0 hleaf0 hhuge hrun with
    hpanic | ⟨rfl, hcount, s1, hun, hmap⟩
  · exact .inl hpanic
  have hmig := h0.migrated hp4 hpage.1 hU hleaf0 hhuge hframe.2 hun hmap
  -- Neither frame is a table.
  have houtside : ∀ f : PhysAddr, f.Frame → f ∈ A.held s₀.alloc →
      (∀ q, tableOf s.tables p4 q ≠ some f) →
      s'.tables f = s₀.tables f ∧ f ∈ A.held s'.alloc := by
    refine fun f hf hfheld hno => hmig.outside f ⟨hf, hfheld, fun q hq => hno q ?_⟩
    exact tableOf_of_priv (h.each p4 hp4) ((fill_tables hrow hp4 q).symm.trans hq)
  have hnewrow := houtside new hframe (hinsert ▸ Set.mem_insert _ _) fun q hq =>
    hfresh (h.toSpacesInv.tableFrame_held (h.toSpacesInv.tableFrame hp4 hq))
  have holdrow := houtside e.addr e.addr_frame (hmore hheld) (hnotable p4 hp4)
  obtain ⟨hdealloc, -⟩ := A.count_deallocate holdrow.2
  have hne : new ≠ e.addr := by
    rintro rfl
    exact hfresh hheld
  have hnewleaf : UserLeaf s'.tables p4 page new := by
    refine ⟨.pack new (flags ||| .PRESENT), ?_, ?_, addr_pack hframe _⟩
    · exact (hmig.leaves p4 hp4 page hpage.1 .small).trans (if_pos ⟨rfl, rfl, rfl⟩)
    · rw [flags_pack hframe, contains_user_or_present, huserflag]
  refine .inr ⟨rfl, hp4, hpage, ⟨hentry, e, hleaf, hcontains, rfl⟩, ?_,
    ⟨hmig.recorded huserflag, hnewleaf⟩, ?_, fun p4' hp4' v hv hne => ?_, ?_,
    fun p4' hp4' v hv hmapped => ?_, ?_⟩
  · exact hne
  · exact hnewrow.1.trans (Function.update_self _ _ _)
  · have hsame : ∀ l, pageLeaf s'.tables p4' l v = pageLeaf s.tables p4' l v := by
      intro l
      rw [hmig.leaves p4' hp4' v hv l, if_neg fun hc => hne ⟨hc.1, hc.2.2⟩, hleaves0 p4' hp4' l v]
    change OffsetMapper.translate s'.tables p4' v = _
    rw [translate_eq_leaves, translate_eq_leaves, hsame, hsame, hsame]
  · have hagrees := (h0.migrate_agrees hagrees0 hp4 hpage hU hframe.2 hrun).2
    exact ⟨hagrees.known, hagrees.leaf_iff, hagrees.once, hagrees.flags⟩
  · obtain ⟨e', he', huser', haddr⟩ := hmapped
    change pageLeaf s'.tables p4' .small v = some e' at he'
    rw [hmig.leaves p4' hp4' v hv.1] at he'
    split at he'
    · cases he'
      exact hne ((addr_pack hframe _).symm.trans haddr)
    · next hother =>
      rw [hleaves0 p4' hp4'] at he'
      obtain ⟨rfl, rfl⟩ := h.once p4 hp4 p4' hp4' page v hpage hv _ ⟨e, hleaf, hcontains, rfl⟩
        ⟨e', he', huser', haddr⟩
      exact hother ⟨rfl, rfl, rfl⟩
  · change A.allocatedFrames (A.deallocateFrame s'.alloc e.addr) = _
    have : A.allocatedFrames s₀.alloc = A.allocatedFrames a := rfl
    omega

end Transparent

/-! ## One page -/

section OnePage

variable {p4 frame : PhysAddr} {page : VirtAddr} {flags : PageTableFlags}

/-- `PHYS_OFFSET` does not matter for the tables. -/
theorem UserFrames.with_offset (h : UserFrames A U K P s) (o : Option UInt64) :
    UserFrames A U K P { s with physOffset := o } where
  each p4 hp4 := ⟨(h.each p4 hp4).root, (h.each p4 hp4).separate, (h.each p4 hp4).held,
    (h.each p4 hp4).counts⟩
  apart := h.apart
  common := h.common
  closed := h.closed
  kept := h.kept
  off := h.off
  agrees := ⟨h.agrees.known, h.agrees.leaf_iff, h.agrees.once, h.agrees.flags⟩
  links := h.links
  used := h.used
  once := h.once

/-- The state after a first user page was mapped on a frame in use. -/
theorem EmptyP4.userFrames (h0 : EmptyP4 A p4 s₀) (hrmap : s₀.rmap = ∅) (hpage : page.IsPage)
    (hframe : frame.Frame) (hheld : frame ∈ A.held s₀.alloc) (hne : frame ≠ p4)
    (hhuge : flags.contains .HUGE_PAGE = false) (huser : flags.contains .USER_ACCESSIBLE = true)
    (hrun : mapPageInner A p4 page frame flags s₀ = (.ok (), s))
    (hlinks : ∀ i, (s.tables p4 i).huge = false) :
    UserFrames A (fun _ => true) ∅ {p4} s := by
  have hempty : ∀ p ∈ ({p4} : Set PhysAddr), EmptyP4 A p s₀ := by
    rintro p rfl
    exact h0
  have hinv0 : SpacesInv A (fun _ => true) ∅ {p4} s₀ := .start hempty
  obtain ⟨hinv, hagrees⟩ := hinv0.map_agrees (.start hempty hrmap) rfl hpage rfl hframe.2 hrun
  obtain ⟨hstep, hcases⟩ := mapPageInner_space (hinv0.each p4 rfl) rfl hframe.2 hrun
  have hl : selectLevel page frame flags = .small := selectLevel_small hhuge
  rw [hl] at hcases
  rcases hcases with ⟨-, -, -, hrecord⟩ | ⟨⟨_, hno⟩, -⟩
  rotate_left
  · cases hno
  -- The reverse map has one entry, and so there is one user leaf.
  have hone : ∀ v : VirtAddr, v.IsPage → ∀ f, UserLeaf s.tables p4 v f → f = frame ∧ v = page := by
    intro v hv f hleaf
    obtain ⟨r, hr, hkey⟩ := (hagrees.leaf_iff p4 rfl v hv f).mpr hleaf
    rw [hrecord, PageLevel.record, if_pos ⟨rfl, huser⟩, rmapLookup_rmapAdd, hrmap] at hr
    split at hr
    · next hf =>
      rw [show rmapLookup ∅ frame = [] from Std.TreeMap.getD_emptyc, nil_append,
        mem_singleton] at hr
      subst hr
      exact ⟨hf, (Prod.mk.inj hkey).2.symm⟩
    · rw [show rmapLookup ∅ f = [] from Std.TreeMap.getD_emptyc] at hr
      cases hr
  refine ⟨hinv, hagrees, ?_, ?_, ?_⟩
  · rintro p rfl i -
    exact hlinks i
  · rintro p rfl v hv f hleaf
    obtain ⟨rfl, -⟩ := hone v hv f hleaf
    have hout : Outside A p (s₀.priv (fun _ => true) p) f := by
      refine ⟨hframe, hheld, fun q hq => ?_⟩
      rw [priv_univ, tableOf_of_zero h0.zero] at hq
      split at hq
      · exact hne (Option.some.inj hq).symm
      · cases hq
    refine ⟨rfl, (hstep.rest hout).2.1, ?_⟩
    rintro p' rfl q hq
    exact (hstep.toLocalStep.still hout).2.2 q (by rwa [priv_univ])
  · rintro p rfl p' rfl v v' hv hv' f hleaf hleaf'
    exact ⟨rfl, (hone v' hv' f hleaf').2.trans (hone v hv f hleaf).2.symm⟩

end OnePage

/-- The first frame of 1024 that is not in use. -/
def firstFree (used : Finset (Fin 1024)) : Option (Fin 1024) :=
  (List.finRange 1024).find? (· ∉ used)

theorem ofPfn_inj {i j : Fin 1024} (h : PhysAddr.ofPfn i = PhysAddr.ofPfn j) : i = j := by
  have hpfn := congrArg PhysAddr.pfn h
  rw [PhysAddr.pfn_ofPfn i.isLt, PhysAddr.pfn_ofPfn j.isLt] at hpfn
  exact Fin.ext hpfn

/-- An allocator that hands out the first free frame. -/
def firstFit : PageAllocator (Finset (Fin 1024)) where
  allocateFrame used :=
    match firstFree used with
    | some i => (some (.ofPfn i), insert i used)
    | none => (none, used)
  deallocateFrame used p := used.filter (PhysAddr.ofPfn · ≠ p)
  held used := {p | ∃ i ∈ used, PhysAddr.ofPfn i = p}
  totalFrames := 1024
  allocatedFrames used := used.card
  movable used n := if h : n < 1024 then ⟨n, h⟩ ∈ used else false
  available used := 1024 - used.card
  allocate_some := by
    intro used used' p h
    split at h
    next i hfree =>
      cases h
      have hi : i ∉ used := by simpa using find?_some hfree
      have hp := PhysAddr.toNat_ofPfn i.isLt
      refine ⟨⟨by omega, by omega⟩, ?_, ?_, ?_⟩
      · rw [PhysAddr.pfn_ofPfn i.isLt]
        exact i.isLt
      · rintro ⟨j, hj, hji⟩
        exact hi (ofPfn_inj hji ▸ hj)
      · ext q
        simp [eq_comm]
    next => cases h
  allocate_none := by
    intro used used' h
    split at h
    next => cases h
    next =>
      cases h
      rfl
  deallocate := by
    intro used p
    ext q
    simp only [Finset.mem_filter, Set.mem_ofPred_eq, Set.mem_sdiff, Set.mem_singleton_iff]
    constructor
    · rintro ⟨i, ⟨hi, hne⟩, rfl⟩
      exact ⟨⟨i, hi, rfl⟩, hne⟩
    · rintro ⟨⟨i, hi, rfl⟩, hne⟩
      exact ⟨i, ⟨hi, hne⟩, rfl⟩
  count_some := by
    intro used used' p h
    split at h
    next i hfree =>
      cases h
      have hi : i ∉ used := by simpa using find?_some hfree
      rw [Finset.card_insert_of_notMem hi]
      omega
    next => cases h
  count_none := by
    intro used used' h
    split at h
    next => cases h
    next hfree =>
      cases h
      have hall : used = Finset.univ := by
        ext i
        simpa using find?_eq_none.mp hfree i (mem_finRange i)
      rw [hall, Finset.card_univ, Fintype.card_fin]
      exact ⟨rfl, rfl⟩
  count_deallocate := by
    rintro used p ⟨i, hi, rfl⟩
    have herase : used.filter (fun j : Fin 1024 => PhysAddr.ofPfn j ≠ PhysAddr.ofPfn i) =
        used.erase i := by
      ext j
      rw [Finset.mem_filter, Finset.mem_erase, and_comm]
      exact and_congr_left fun _ => ⟨fun h heq => h (heq ▸ rfl), fun h heq => h (ofPfn_inj heq)⟩
    have hcard := Finset.card_le_univ used
    rw [Fintype.card_fin] at hcard
    have hpos := Finset.card_pos.mpr ⟨i, hi⟩
    rw [herase, Finset.card_erase_of_mem hi]
    omega

/-- An empty P4 in frame 1, and frame 2 in use for a page. -/
def onePageStart : MmState (Finset (Fin 1024)) where
  physOffset := some 0xffff800000000000
  tables := fun _ => .zero
  counts := some ⟨fun _ => 0, 1024⟩
  rmap := ∅
  alloc := {0, 1, 2}

/-- That page is mapped. -/
def onePage : MmState (Finset (Fin 1024)) :=
  (mapPageInner firstFit.toFrameAllocator (.ofPfn 1) ⟨0x400000⟩ (.ofPfn 2)
    (.WRITABLE ||| .USER_ACCESSIBLE) onePageStart).2

theorem onePage_userFrames :
    UserFrames firstFit.toFrameAllocator (fun _ => true) ∅ {.ofPfn 1} onePage := by
  have h0 : EmptyP4 firstFit.toFrameAllocator (.ofPfn 1) onePageStart := by
    refine ⟨by decide, by decide, ⟨1, by decide, rfl⟩, rfl, rfl, ?_⟩
    rintro c ⟨⟩
    exact ⟨rfl, rfl, fun _ _ _ => rfl⟩
  have hpage : (VirtAddr.mk 0x400000).IsPage := ⟨by decide, by decide⟩
  have hresult : (mapPageInner firstFit.toFrameAllocator (.ofPfn 1) ⟨0x400000⟩ (.ofPfn 2)
      (.WRITABLE ||| .USER_ACCESSIBLE) onePageStart).1 = .ok () := by decide +kernel
  have hrun : mapPageInner firstFit.toFrameAllocator (.ofPfn 1) ⟨0x400000⟩ (.ofPfn 2)
      (.WRITABLE ||| .USER_ACCESSIBLE) onePageStart = (.ok (), onePage) := by
    unfold onePage
    rw [← hresult]
  refine h0.userFrames rfl hpage ⟨by decide, by decide⟩ ⟨2, by decide, rfl⟩ (by decide) (by decide)
    (by decide) hrun ?_
  decide +kernel

end BoruixKernel
