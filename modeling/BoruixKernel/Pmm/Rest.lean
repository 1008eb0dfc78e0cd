import BoruixKernel.Pmm.Allocator

/-!
# What the operations leave alone

The parts of the allocator are independent of one another.  No operation inside a call changes
the metadata map or the counters of the calls (`Rest`), and those that move blocks between the
free lists and the regions change neither the caches nor the reserve (`ListsOnly`).  This holds of
every state, whatever its lists look like.
-/

namespace BoruixKernel

namespace Pmm

/-- The metadata map and the counters are the same. -/
structure Rest (p p' : Pmm) : Prop where
  totalFrames : p'.totalFrames = p.totalFrames
  metadata : p'.metadata = p.metadata
  allocatedFrames : p'.allocatedFrames = p.allocatedFrames
  allocCalls : p'.allocCalls = p.allocCalls
  compactLastAllocCall : p'.compactLastAllocCall = p.compactLastAllocCall

/-- The caches and the reserve are the same as well. -/
structure ListsOnly (p p' : Pmm) : Prop extends Rest p p' where
  caches : p'.caches = p.caches
  reserveHead : p'.reserveHead = p.reserveHead
  reserveCount : p'.reserveCount = p.reserveCount

theorem Rest.refl (p : Pmm) : Rest p p := ⟨rfl, rfl, rfl, rfl, rfl⟩

theorem Rest.trans (h : Rest p p') (h' : Rest p' p'') : Rest p p'' where
  totalFrames := h'.totalFrames.trans h.totalFrames
  metadata := h'.metadata.trans h.metadata
  allocatedFrames := h'.allocatedFrames.trans h.allocatedFrames
  allocCalls := h'.allocCalls.trans h.allocCalls
  compactLastAllocCall := h'.compactLastAllocCall.trans h.compactLastAllocCall

theorem ListsOnly.refl (p : Pmm) : ListsOnly p p := ⟨.refl p, rfl, rfl, rfl⟩

theorem ListsOnly.trans (h : ListsOnly p p') (h' : ListsOnly p' p'') : ListsOnly p p'' where
  toRest := h.toRest.trans h'.toRest
  caches := h'.caches.trans h.caches
  reserveHead := h'.reserveHead.trans h.reserveHead
  reserveCount := h'.reserveCount.trans h.reserveCount

/-! ## Free lists -/

theorem ListsOnly.modifyFrame (h : ListsOnly p p') (b : Nat) (g : BuddyFrame → BuddyFrame) :
    ListsOnly p (p'.modifyFrame b g) :=
  ⟨⟨h.totalFrames, h.metadata, h.allocatedFrames, h.allocCalls, h.compactLastAllocCall⟩, h.caches,
    h.reserveHead, h.reserveCount⟩

theorem removeFromListWithList_listsOnly (p : Pmm) (b k s : Nat) :
    ListsOnly p (p.removeFromListWithList b k s) := by
  unfold removeFromListWithList
  cases (p.frames b).prev <;> cases (p.frames b).next
  all_goals exact ⟨⟨rfl, rfl, rfl, rfl, rfl⟩, rfl, rfl, rfl⟩

theorem pushToGlobal_listsOnly (p : Pmm) (b k : Nat) : ListsOnly p (p.pushToGlobal b k) := by
  simp only [pushToGlobal]
  cases p.lists k (shardForPfn b)
  all_goals exact ⟨⟨rfl, rfl, rfl, rfl, rfl⟩, rfl, rfl, rfl⟩

theorem popShards_listsOnly (p : Pmm) (k : Nat) (shards : List Nat) :
    ListsOnly p (p.popShards k shards).2 := by
  induction shards with
  | nil => exact .refl p
  | cons shard shards ih =>
    rw [popShards]
    split
    · next idx _ =>
      dsimp only
      exact (removeFromListWithList_listsOnly p idx k shard).modifyFrame _ _
    · exact ih

theorem splitDown_listsOnly (b k n : Nat) (p : Pmm) : ListsOnly p (splitDown b k n p) := by
  induction n generalizing p with
  | zero => exact .refl p
  | succ n ih =>
    exact (((ListsOnly.refl p).modifyFrame _ _).trans (pushToGlobal_listsOnly _ _ _)).trans (ih _)

theorem allocFromHigher_listsOnly (p : Pmm) (k cpu : Nat) (orders : List Nat) :
    ListsOnly p (p.allocFromHigher k cpu orders).2 := by
  induction orders generalizing p with
  | nil => exact .refl p
  | cons higher orders ih =>
    have hpop : ListsOnly p (p.popFromGlobal higher cpu).2 := popShards_listsOnly ..
    rw [allocFromHigher]
    split
    · next heq =>
      rw [heq] at hpop
      dsimp only at hpop ⊢
      exact (hpop.trans (splitDown_listsOnly _ k (higher - k) _)).modifyFrame _ _
    · next heq =>
      rw [heq] at hpop
      exact hpop.trans (ih _)

theorem allocFromList_listsOnly (p : Pmm) (k cpu : Nat) : ListsOnly p (p.allocFromList k cpu).2 := by
  have hpop : ListsOnly p (p.popFromGlobal k cpu).2 := popShards_listsOnly ..
  rw [allocFromList]
  split
  · next heq =>
    rw [heq] at hpop
    exact hpop
  · next heq =>
    rw [heq] at hpop
    exact hpop.trans (allocFromHigher_listsOnly _ _ _ _)

theorem freeAndMerge_listsOnly (p : Pmm) (b k : Nat) : ListsOnly p (p.freeAndMerge b k) := by
  fun_induction freeAndMerge p b k with
  | case1 | case2 | case4 => exact pushToGlobal_listsOnly ..
  | case3 p b k _ _ _ _ _ p1 p2 ih =>
    exact ((removeFromListWithList_listsOnly ..).modifyFrame _ _).trans ih

/-! ## Regions -/

theorem freeGap_listsOnly (p : Pmm) (cursor aligned : Nat) :
    ListsOnly p (p.freeGap cursor aligned) := by
  fun_induction freeGap p cursor aligned with
  | case1 p cursor _ _ p1 ih =>
    exact (((ListsOnly.refl p).modifyFrame _ _).trans (freeAndMerge_listsOnly ..)).trans ih
  | case2 p => exact .refl p

theorem allocFromRegions_listsOnly (p : Pmm) (k : Nat) (is : List Nat) :
    ListsOnly p (p.allocFromRegions k is).2 := by
  induction is with
  | nil => exact .refl p
  | cons i is ih =>
    rw [allocFromRegions]
    simp only []
    split
    · split
      · have hgap := freeGap_listsOnly p
        exact ⟨⟨(hgap _ _).totalFrames, (hgap _ _).metadata, (hgap _ _).allocatedFrames,
          (hgap _ _).allocCalls, (hgap _ _).compactLastAllocCall⟩, (hgap _ _).caches,
          (hgap _ _).reserveHead, (hgap _ _).reserveCount⟩
      · exact ih
    · exact ih

/-- Taking a block from the free lists or from a region. -/
theorem allocGlobal_listsOnly (p : Pmm) (k cpu : Nat) : ListsOnly p (p.allocGlobal k cpu).2 := by
  have hlist := allocFromList_listsOnly p k cpu
  rw [allocGlobal]
  split
  · next heq =>
    rw [heq] at hlist
    exact hlist
  · next p1 heq =>
    rw [heq] at hlist
    have hregion : ListsOnly p1 (p1.allocFromUninit k).2 := allocFromRegions_listsOnly ..
    split
    · next heq' =>
      rw [heq'] at hregion
      dsimp only at hregion ⊢
      exact (hlist.trans hregion).modifyFrame _ _
    · next heq' =>
      rw [heq'] at hregion
      exact hlist.trans hregion

/-! ## Caches and reserve -/

theorem percpuPopRaw_rest (p : Pmm) (cpu k : Nat) : Rest p (p.percpuPopRaw cpu k).2 := by
  simp only [percpuPopRaw]
  split
  · exact ⟨rfl, rfl, rfl, rfl, rfl⟩
  · exact .refl p

theorem percpuPushRaw_rest (p : Pmm) (cpu b k : Nat) : Rest p (p.percpuPushRaw cpu b k) :=
  ⟨rfl, rfl, rfl, rfl, rfl⟩

theorem drainCache_rest (cpu k n : Nat) (p : Pmm) : Rest p (drainCache cpu k n p) := by
  induction n generalizing p with
  | zero => exact .refl p
  | succ n ih =>
    have hpop := percpuPopRaw_rest p cpu k
    rw [drainCache]
    split
    · next heq =>
      rw [heq] at hpop
      exact (hpop.trans (freeAndMerge_listsOnly ..).toRest).trans (ih _)
    · next heq =>
      rw [heq] at hpop
      exact hpop

theorem percpuPush_rest (p : Pmm) (cpu b k : Nat) : Rest p (p.percpuPush cpu b k) :=
  (percpuPushRaw_rest p cpu b k).trans (drainCache_rest ..)

theorem compact_rest (p : Pmm) : Rest p p.compact := by
  have hfold : ∀ (slots : List (Nat × Nat)) (p : Pmm), Rest p
      (slots.foldl (fun p slot => drainCache slot.1 slot.2 p.totalFrames p) p) := by
    intro slots
    induction slots with
    | nil => exact .refl
    | cons slot slots ih => exact fun p => (drainCache_rest ..).trans (ih _)
  exact hfold cacheSlots p

theorem refillLoop_rest (cpu k n : Nat) (first : Option Nat) (p : Pmm) :
    Rest p (refillLoop cpu k n first p).2 := by
  induction n generalizing first p with
  | zero => exact .refl p
  | succ n ih =>
    have halloc := (allocGlobal_listsOnly p k cpu).toRest
    rw [refillLoop]
    split
    · next heq =>
      rw [heq] at halloc
      split
      · exact halloc.trans (ih _ _)
      · exact (halloc.trans (percpuPushRaw_rest ..)).trans (ih _ _)
    · next heq =>
      rw [heq] at halloc
      exact halloc

theorem reservePop_rest (p : Pmm) : Rest p p.reservePop.2 := by
  simp only [reservePop]
  split
  · exact ⟨rfl, rfl, rfl, rfl, rfl⟩
  · exact .refl p

theorem reservePush_rest (p : Pmm) (b : Nat) : Rest p (p.reservePush b) := ⟨rfl, rfl, rfl, rfl, rfl⟩

theorem initReserve_rest (n : Nat) (p : Pmm) :
    Rest p (initReserve n p) ∧ (initReserve n p).caches = p.caches := by
  induction n generalizing p with
  | zero => exact ⟨.refl p, rfl⟩
  | succ n ih =>
    have hglobal := allocGlobal_listsOnly p 0 0
    rw [initReserve]
    split
    · next b p1 heq =>
      rw [heq] at hglobal
      obtain ⟨hrest, hcaches⟩ := ih (p1.reservePush b)
      exact ⟨(hglobal.toRest.trans (reservePush_rest ..)).trans hrest, hcaches.trans hglobal.caches⟩
    · next heq =>
      rw [heq] at hglobal
      exact ⟨hglobal.toRest, hglobal.caches⟩

/-- The search of `allocate`. -/
theorem findBlock_rest (p : Pmm) (k cpu : Nat) : Rest p (p.findBlock k cpu).2 := by
  have hpop := percpuPopRaw_rest p cpu k
  rw [findBlock]
  split
  · next heq =>
    rw [heq] at hpop
    exact hpop
  · next p1 heq =>
    rw [heq] at hpop
    have hrefill : Rest p1 (p1.percpuRefill cpu k).2 := refillLoop_rest ..
    split
    · next heq1 =>
      rw [heq1] at hrefill
      exact hpop.trans hrefill
    · next p2 heq1 =>
      rw [heq1] at hrefill
      have hglobal := (allocGlobal_listsOnly p2 k cpu).toRest
      split
      · next heq2 =>
        rw [heq2] at hglobal
        exact (hpop.trans hrefill).trans hglobal
      · next p3 heq2 =>
        rw [heq2] at hglobal
        have hall := (hpop.trans hrefill).trans hglobal
        split
        · exact hall.trans (reservePop_rest p3)
        · exact hall

end Pmm

end BoruixKernel
