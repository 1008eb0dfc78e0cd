import BoruixKernel.Pmm.InvalidFree
import BoruixKernel.Pmm.Meminfo

/-!
# The counters of the caches and of the reserve

The reserve counts its pages.  No step but those of the reserve changes the list or the links of
the pages in it, and those change the count along with the list; a page enters only if the reserve
is not full (`Step.reservePush`).  Together with the counts of the caches (`PmmRun.counted`) all
counters are exact, as long as no page of the reserve is freed.
-/

namespace BoruixKernel

open LinkedList

namespace Pmm

/-- The count of the reserve is the length of its list, and within its target. -/
structure ReserveCounted (p : Pmm) : Prop where
  length : ∀ {l}, Chain p.next p.reserveHead l → p.reserveCount = l.length
  bound : p.reserveCount ≤ reserveTarget

section Steps

variable {p p' : Pmm}

section

variable (hc : ReserveCounted p) (h : Rep p own)

include hc h

/-- What changes neither the reserve nor the links of the pages in it. -/
theorem ReserveCounted.keep (hhead : p'.reserveHead = p.reserveHead)
    (hcount : p'.reserveCount = p.reserveCount)
    (hlinks : ∀ f, own f = some (.block f 0 .reserve) → p'.next f = p.next f) : ReserveCounted p' := by
  obtain ⟨l, hl, hmem⟩ := h.reserve
  refine ⟨fun {l'} hl' => ?_, hcount.le.trans hc.bound⟩
  have hchain : Chain p'.next p'.reserveHead l := by
    rw [hhead]
    exact hl.congr fun f hf => hlinks f ((hmem f).mp hf)
  rw [hl'.unique hchain, hcount]
  exact hc.length hl

theorem ReserveCounted.reservePop (hpop : p.reservePop = (some b, p')) : ReserveCounted p' := by
  obtain ⟨l, hl, -⟩ := h.reserve
  have hnd := hl.nodup
  have hcount := hc.length hl
  have hbound := hc.bound
  unfold Pmm.reservePop at hpop
  cases hhead : p.reserveHead with
  | none =>
    rw [hhead] at hpop
    cases hpop
  | some head =>
    rw [hhead] at hl hpop
    obtain ⟨l2, rfl, hl2⟩ := hl.tail
    cases hpop
    have hcount2 : p.reserveCount - 1 = l2.length := by
      rw [hcount, List.length_cons, Nat.add_sub_cancel]
    refine ⟨fun {l'} hl' => ?_, (Nat.sub_le ..).trans hbound⟩
    rw [hl'.unique (hl2.congr fun f hf => ?_)]
    · exact hcount2
    · have hne : f ≠ b := fun heq => (List.nodup_cons.mp hnd).1 (heq ▸ hf)
      rw [next, modifyFrame_frames, if_neg hne]
      rfl

theorem ReserveCounted.reservePush (hb : own b = some (.block b 0 .held))
    (hroom : p.reserveCount < reserveTarget) : ReserveCounted (p.reservePush b) := by
  obtain ⟨l, hl, hmem⟩ := h.reserve
  refine ⟨fun {l'} hl' => ?_, hroom⟩
  have hchain : Chain (p.reservePush b).next (p.reservePush b).reserveHead (b :: l) := by
    refine ⟨rfl, ?_⟩
    rw [next, Pmm.reservePush, modifyFrame_frames, if_pos rfl]
    refine hl.congr fun f hf => ?_
    have hne : f ≠ b := by
      rintro rfl
      have hown := (hmem f).mp hf
      rw [hb] at hown
      cases hown
    rw [next, modifyFrame_frames, if_neg hne]
    rfl
  rw [hl'.unique hchain, List.length_cons, ← hc.length hl]
  rfl

end

theorem Step.reserveCounted (h : Step s t) (hrep : Rep s.1 s.2)
    (hs : ReserveCounted s.1) : ReserveCounted t.1 := by
  cases h with
  | list h =>
    exact hs.keep hrep h.listsOnly.reserveHead h.listsOnly.reserveCount fun f =>
      h.sameLinks hrep f 0 .reserve (by simp) id
  | @cachePop p p' own cpu b k hpop =>
    have hb := (hrep.percpuPopRaw hpop).1
    unfold percpuPopRaw at hpop
    simp only [] at hpop
    split at hpop
    · cases hpop
      refine hs.keep hrep rfl rfl fun f hf => ?_
      have hne : f ≠ b := by
        rintro rfl
        rw [hb] at hf
        cases hf
      rw [next, modifyFrame_frames, if_neg hne]
      rfl
    · cases hpop
  | @cachePush p own b k cpu hb =>
    dsimp only at hrep
    refine hs.keep hrep rfl rfl fun f hf => ?_
    have hne : f ≠ b := by
      rintro rfl
      rw [hb] at hf
      cases hf
    rw [next, percpuPushRaw, setCache_frames, modifyFrame_frames, if_neg hne]
    rfl
  | reservePop hpop => exact hs.reservePop hrep hpop
  | reservePush hb hroom => exact hs.reservePush hrep hb hroom
  | counters => exact ⟨hs.length, hs.bound⟩

end Steps

/-- The counters of all caches and of the reserve are the lengths of the lists, which end, visit
no block twice, and are no longer than they may be. -/
structure CountersExact (p : Pmm) (c : Contents) : Prop where
  caches : ∀ cpu order, (p.caches cpu).counts order = (c.cache cpu order).length
  limits : ∀ cpu order, (p.caches cpu).counts order ≤ perCpuLimit order
  reserve : p.reserveCount = c.reserve.length
  target : p.reserveCount ≤ reserveTarget
  cachesNodup : ∀ cpu order, (c.cache cpu order).Nodup
  reserveNodup : c.reserve.Nodup

/-- The counters are exact at every point of every run in which a frame that starts no block of
the client is freed only if it is one that the check catches. -/
theorem FreeRun.counters_exact {mmap : List MemmapEntry} {p : Pmm} {held : List (Nat × Nat)}
    (hmap : MemmapOk mmap) (hrun : FreeRun mmap p held) :
    ∃ c : Contents, c.Of p ∧ CountersExact p c := by
  obtain ⟨own, h, hreserve⟩ := (hrun.pmmRun hmap).invariant (I := fun s => ReserveCounted s.1) hmap
    (fun _ _ => ⟨fun {l} hl => by rw [show l = [] from hl.unique rfl]; rfl, Nat.zero_le _⟩)
    fun hrep hs hstep => hstep.reserveCounted hrep hs
  obtain ⟨hcounted, hlimited⟩ := (hrun.pmmRun hmap).counted hmap
  obtain ⟨c, hof, -⟩ := h.inv.toRep.contents
  exact ⟨c, hof, {
    caches := fun cpu order => hcounted.length cpu order _ (hof.cache cpu order)
    limits := hlimited
    reserve := hreserve.length hof.reserve
    target := hreserve.bound
    cachesNodup := fun cpu order => (hof.cache cpu order).nodup
    reserveNodup := hof.reserve.nodup }⟩

theorem counters_exact_smallMap : ∃ p, FreeRun smallMap p [] ∧
    ∃ c : Contents, c.Of p ∧ CountersExact p c := by
  obtain ⟨p, hinit, -⟩ := smallMap_init
  exact ⟨p, .init hinit, FreeRun.counters_exact smallMap_ok (.init hinit)⟩

/-- After `init` the reserve holds 32 pages.  Once its first page is freed, that page links to the
page that was the head of the cache, so that the list of the reserve has a single page. -/
theorem freed_reserve_page_uncounted : ∃ p, FreeRun smallMap p [] ∧
    Chain (p.deallocate 0 294).next (p.deallocate 0 294).reserveHead [294] ∧
    (p.deallocate 0 294).reserveCount = 32 := by
  obtain ⟨p, hinit, hhead, hnext, hcount⟩ := exists_init smallMap (fun p =>
    (p.deallocate 0 294).reserveHead = some 294 ∧ (p.deallocate 0 294).next 294 = none ∧
      (p.deallocate 0 294).reserveCount = 32) (by decide +kernel)
  exact ⟨p, .init hinit, ⟨hhead, hnext⟩, hcount⟩

end Pmm

end BoruixKernel
