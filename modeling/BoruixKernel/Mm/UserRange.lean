import BoruixKernel.Mm.Fork
import BoruixKernel.Mm.MapperSuccess
import BoruixKernel.Mm.VmaInsert

/-!
# Mapping a range of user pages

`push` without data puts zeroed frames under the pages of an area and records the area.
`PagesAdded` says what the loop over the pages does to the bytes and leaves of the address
space.  The loop comes to its end exactly if no page is mapped before, given frames
(`pushPages_ok`, `pushPages_spec`).
-/

namespace BoruixKernel

open PointerTrie List Option

section Space

variable {σ : Type} {A : FrameAllocator σ} {K P : Set PhysAddr} {ms : MemorySet}
  {s s' s₁ s₂ : MmState σ} {page v : VirtAddr} {flags : PageTableFlags} {pages : List VirtAddr}

/-- An address space whose user pages are on frames in use that are not tables. -/
structure SpaceOk (A : FrameAllocator σ) (K P : Set PhysAddr) (ms : MemorySet) (s : MmState σ) :
    Prop where
  spaces : SpacesInv A userHalf K P s
  space : ms.p4Phys ∈ P
  offset : s.physOffset.isSome
  frames : ∀ v : VirtAddr, v.asU64.toNat < UserEnd → ∀ p, ms.translate s v = some p →
    p.frameBase.Frame ∧ p.frameBase ∈ A.held s.alloc ∧ ¬ TableFrame userHalf K P s p.frameBase

/-- The address is in one of the pages. -/
def InPages (pages : List VirtAddr) (v : VirtAddr) : Prop :=
  ∃ page ∈ pages, v.asU64.toNat / 4096 = page.asU64.toNat / 4096

/-- Pages that were not mapped are mapped with the flags and read as zero, and the rest of
the user half is as it was. -/
structure PagesAdded (ms : MemorySet) (flags : PageTableFlags) (pages : List VirtAddr)
    (s s' : MmState σ) : Prop where
  offset : s'.physOffset = s.physOffset
  vacant : ∀ page ∈ pages, ms.translate s page = none
  leaf : ∀ v : VirtAddr, v.asU64.toNat < UserEnd → InPages pages v → ∃ frame : PhysAddr,
    frame.Frame ∧ pageLeaf s'.tables ms.p4Phys .small v = some (.pack frame (flags ||| .PRESENT))
  zero : ∀ v : VirtAddr, v.asU64.toNat < UserEnd → InPages pages v → ms.readByte s' v = some 0
  leaves : ∀ v : VirtAddr, v.asU64.toNat < UserEnd → ¬ InPages pages v → ∀ l,
    pageLeaf s'.tables ms.p4Phys l v = pageLeaf s.tables ms.p4Phys l v
  bytes : ∀ v : VirtAddr, v.asU64.toNat < UserEnd → ¬ InPages pages v →
    ms.readByte s' v = ms.readByte s v

theorem translate_of_pageLeaves (h : ∀ l, pageLeaf T' p4 l v = pageLeaf T p4 l v) :
    OffsetMapper.translate T' p4 v = OffsetMapper.translate T p4 v := by
  rw [translate_eq_leaves, translate_eq_leaves, h, h, h]

theorem PagesAdded.translate_eq (h : PagesAdded ms flags pages s s') (hoff : s.physOffset.isSome)
    (hv : v.asU64.toNat < UserEnd) (hout : ¬ InPages pages v) :
    ms.translate s' v = ms.translate s v := by
  rw [MemorySet.translate_eq_mapper hoff, MemorySet.translate_eq_mapper (h.offset ▸ hoff)]
  exact translate_of_pageLeaves (h.leaves v hv hout)

theorem PagesAdded.translate_isSome (h : PagesAdded ms flags pages s s')
    (hoff : s.physOffset.isSome) (hv : v.asU64.toNat < UserEnd) (hin : InPages pages v) :
    (ms.translate s' v).isSome := by
  obtain ⟨frame, -, hleaf⟩ := h.leaf v hv hin
  rw [MemorySet.translate_eq_mapper (h.offset ▸ hoff), translate_of_pageLeaf hleaf]
  rfl

theorem PagesAdded.nil : PagesAdded ms flags [] s s :=
  ⟨rfl, fun _ h => absurd h not_mem_nil, fun _ _ ⟨_, h, _⟩ => absurd h not_mem_nil,
    fun _ _ ⟨_, h, _⟩ => absurd h not_mem_nil, fun _ _ _ _ => rfl, fun _ _ _ => rfl⟩

/-- Pages added one after the other. -/
theorem PagesAdded.cons (hoff : s.physOffset.isSome) (hlt : page.asU64.toNat < UserEnd)
    (hpages : ∀ p ∈ pages, p.asU64.toNat < UserEnd) (h1 : PagesAdded ms flags [page] s s₁)
    (h2 : PagesAdded ms flags pages s₁ s₂) : PagesAdded ms flags (page :: pages) s s₂ := by
  -- A page of both would be mapped after the first step, where the others are vacant.
  have hapart : ∀ v, InPages [page] v → ¬ InPages pages v := by
    rintro v ⟨_, hmem, hv⟩ ⟨p, hp, hv'⟩
    rw [mem_singleton.mp hmem] at hv
    have hsome := h1.translate_isSome hoff (hpages p hp)
      ⟨page, mem_singleton.mpr rfl, hv'.symm.trans hv⟩
    rw [h2.vacant p hp] at hsome
    cases hsome
  have hcases : ∀ v, InPages (page :: pages) v ↔ InPages [page] v ∨ InPages pages v := by
    intro v
    simp [InPages, exists_eq_or_imp]
  constructor
  · exact h2.offset.trans h1.offset
  · intro p hp
    rcases mem_cons.mp hp with rfl | hp
    · exact h1.vacant p (mem_singleton.mpr rfl)
    · rw [← h1.translate_eq hoff (hpages p hp) fun hin => hapart p hin ⟨p, hp, rfl⟩]
      exact h2.vacant p hp
  · intro v hv hin
    rcases (hcases v).mp hin with hin | hin
    · obtain ⟨frame, hframe, hleaf⟩ := h1.leaf v hv hin
      exact ⟨frame, hframe, (h2.leaves v hv (hapart v hin) .small).trans hleaf⟩
    · exact h2.leaf v hv hin
  · intro v hv hin
    rcases (hcases v).mp hin with hin | hin
    · exact (h2.bytes v hv (hapart v hin)).trans (h1.zero v hv hin)
    · exact h2.zero v hv hin
  · intro v hv hout l
    rw [hcases, not_or] at hout
    exact (h2.leaves v hv hout.2 l).trans (h1.leaves v hv hout.1 l)
  · intro v hv hout
    rw [hcases, not_or] at hout
    exact (h2.bytes v hv hout.2).trans (h1.bytes v hv hout.1)

theorem PageTable.byte_zero (b : Nat) : PageTable.zero.byte b = 0 := by
  simp [PageTable.byte, PageTable.zero, PageTableEntry.new]

/-- The frame behind a 4 KiB leaf. -/
theorem frameBase_small : (PageLevel.small.apply v e).frameBase = e.addr := by
  refine frameBase_eq e.addr_frame ?_
  have hmod := e.addr_frame.1
  rw [toNat_apply]
  simp only [PageLevel.size, PageLevel.bits]
  omega

/-- The frame of a page that was mapped before is not touched. -/
theorem SpaceOk.outside (h : SpaceOk A K P ms s) (hv : v.asU64.toNat < UserEnd)
    (hp : ms.translate s v = some p) :
    Outside A ms.p4Phys (s.priv userHalf ms.p4Phys) p.frameBase := by
  obtain ⟨hframe, hheld, hno⟩ := h.frames v hv p hp
  exact ⟨hframe, hheld, fun q hq => hno (.inr ⟨ms.p4Phys, h.space, q, hq⟩)⟩

/-- One round of the loop: a frame is allocated, mapped and cleared. -/
theorem SpaceOk.addPage (h : SpaceOk A K P ms s) (halloc : A.allocateFrame s.alloc = (some phys, a))
    (hpage : page.IsPage) (hlt : page.asU64.toNat < UserEnd)
    (hhuge : flags.contains .HUGE_PAGE = false)
    (hmap : mapPageInner A ms.p4Phys page phys flags { s with alloc := a } = (.ok (), s₂)) :
    SpaceOk A K P ms (s₂.zeroFrame phys) ∧
      PagesAdded ms flags [page] s (s₂.zeroFrame phys) := by
  let s' := s₂.zeroFrame phys
  have hfill : PageFilled A K P ms.p4Phys page flags phys PageTable.zero s s' :=
    h.spaces.pageFilled h.space halloc hpage (userHalf_of_lt hlt) hhuge hmap _
  have hoff : s'.physOffset.isSome := hfill.offset ▸ h.offset
  have hin : ∀ v, InPages [page] v ↔ v.asU64.toNat / 4096 = page.asU64.toNat / 4096 := fun v => by
    simp [InPages]
  have hleaf : ∀ v : VirtAddr, v.asU64.toNat < UserEnd → InPages [page] v →
      pageLeaf s'.tables ms.p4Phys .small v = some (.pack phys (flags ||| .PRESENT)) := by
    intro v hv hv'
    rw [hfill.leaves v (.inl hv), if_pos ⟨rfl, (hin v).mp hv'⟩]
  have hleaves : ∀ v : VirtAddr, v.asU64.toNat < UserEnd → ¬ InPages [page] v → ∀ l,
      pageLeaf s'.tables ms.p4Phys l v = pageLeaf s.tables ms.p4Phys l v := by
    intro v hv hv' l
    rw [hfill.leaves v (.inl hv), if_neg fun hc => hv' ((hin v).mpr hc.2)]
  -- A page is on the new frame, or on the one it was on.
  have hnew : ∀ v : VirtAddr, v.asU64.toNat < UserEnd → InPages [page] v →
      ∃ p, ms.translate s' v = some p ∧ p.frameBase = phys := by
    intro v hv hv'
    refine ⟨PageLevel.small.apply v (.pack phys (flags ||| .PRESENT)), ?_, ?_⟩
    · rw [MemorySet.translate_eq_mapper hoff, translate_of_pageLeaf (hleaf v hv hv')]
    · rw [frameBase_small, PageTableEntry.addr_pack hfill.outside.1]
  have hold : ∀ v : VirtAddr, v.asU64.toNat < UserEnd → ¬ InPages [page] v →
      ms.translate s' v = ms.translate s v := by
    intro v hv hv'
    rw [MemorySet.translate_eq_mapper hoff, MemorySet.translate_eq_mapper h.offset]
    exact translate_of_pageLeaves (hleaves v hv hv')
  constructor
  · refine ⟨hfill.spaces, h.space, hoff, fun v hv p hp => ?_⟩
    by_cases hv' : InPages [page] v
    · obtain ⟨p', hp', hbase⟩ := hnew v hv hv'
      obtain rfl := Option.some.inj (hp.symm.trans hp')
      rw [hbase]
      exact ⟨hfill.outside.1, hfill.outside.2.1, hfill.noTable⟩
    · have hp0 : ms.translate s v = some p := (hold v hv hv').symm.trans hp
      have hout := (hfill.rest _ (h.outside hv hp0)).2
      refine ⟨hout.1, hout.2.1, ?_⟩
      rintro (hK | ⟨p4', hp4', q, hq⟩)
      · exact (h.frames v hv p hp0).2.2 (.inl hK)
      · by_cases heq : p4' = ms.p4Phys
        · subst heq
          exact hout.2.2 q hq
        · exact (h.frames v hv p hp0).2.2
            (.inr ⟨p4', hp4', q, (hfill.other p4' hp4' heq q).symm.trans hq⟩)
  · constructor
    · exact hfill.offset
    · intro p hp
      rw [mem_singleton.mp hp, MemorySet.translate_eq_mapper h.offset, translate_eq_none]
      -- A larger leaf would still be there, next to the new one.
      intro l
      cases hl : pageLeaf s.tables ms.p4Phys l page with
      | none => rfl
      | some e =>
        by_cases hsmall : l = .small
        · rw [hsmall, hfill.vacant] at hl
          cases hl
        · have hl' : pageLeaf s'.tables ms.p4Phys l page = some e := by
            rw [hfill.leaves page hpage.1, if_neg fun hc => hsmall hc.1, hl]
          exact absurd (pageLeaf_unique hl' (hleaf page hlt ((hin page).mpr rfl))) hsmall
    · exact fun v hv hv' => ⟨phys, hfill.outside.1, hleaf v hv hv'⟩
    · intro v hv hv'
      obtain ⟨p, hp, hbase⟩ := hnew v hv hv'
      rw [MemorySet.readByte, hp, map_some, hbase, hfill.row, PageTable.byte_zero]
    · exact hleaves
    · intro v hv hv'
      rw [MemorySet.readByte, MemorySet.readByte, hold v hv hv']
      cases hp : ms.translate s v with
      | none => rfl
      | some p => rw [map_some, map_some, (hfill.rest _ (h.outside hv hp)).1]

/-- When the loop comes to its end, all pages are there. -/
theorem pushPages_spec (hhuge : area.flags.contains .HUGE_PAGE = false)
    (hpages : ∀ p ∈ pages, p.IsPage ∧ p.asU64.toNat < UserEnd) (h : SpaceOk A K P ms s)
    (hrun : pushPages A ms.p4Phys area none pages mapped s = (.ok (), s')) :
    SpaceOk A K P ms s' ∧ PagesAdded ms area.flags pages s s' := by
  induction pages generalizing mapped s with
  | nil =>
    cases hrun
    exact ⟨h, .nil⟩
  | cons page pages ih =>
    obtain ⟨hpage, hlt⟩ := hpages page mem_cons_self
    have hrest : ∀ p ∈ pages, p.IsPage ∧ p.asU64.toNat < UserEnd := fun p hp =>
      hpages p (mem_cons_of_mem _ hp)
    rw [pushPages] at hrun
    rcases halloc : A.allocateFrame s.alloc with ⟨_ | phys, a⟩
    · rw [halloc] at hrun
      cases hrun
    rw [halloc] at hrun
    simp only at hrun
    rcases hmap : mapPageInner A ms.p4Phys page phys area.flags { s with alloc := a } with
      ⟨(e | msg) | _, s₂⟩
    · rw [hmap] at hrun
      cases hrun
    · rw [hmap] at hrun
      cases hrun
    rw [hmap] at hrun
    obtain ⟨hok, hadd⟩ := h.addPage halloc hpage hlt hhuge hmap
    obtain ⟨hok', hadd'⟩ := ih hrest hok hrun
    exact ⟨hok', .cons h.offset hlt (fun p hp => (hrest p hp).2) hadd hadd'⟩

/-- With frames, the loop comes to its end if no page is mapped. -/
theorem pushPages_ok (hhuge : area.flags.contains .HUGE_PAGE = false)
    (mapped : List (VirtAddr × PhysAddr)) (h : Room A U p4 pages (4 * pages.length) s) :
    ∃ s', pushPages A p4 area none pages mapped s = (.ok (), s') ∧ Tidy p4 (s'.priv U p4).tables := by
  induction pages generalizing mapped s with
  | nil => exact ⟨s, rfl, h.tidy⟩
  | cons page pages ih =>
    obtain ⟨phys, a, halloc, -, hphys, h1⟩ := h.alloc
    obtain ⟨s₂, hmap, hphys2, h2⟩ := h1.map hphys hhuge
    obtain ⟨s', hrun, htidy⟩ := ih (mapped ++ [(page, phys)]) (h2.fill hphys2 PageTable.zero)
    refine ⟨s', ?_, htidy⟩
    rw [pushPages, halloc]
    simp only [hmap]
    exact hrun

/-- Pages that do not translate can be mapped. -/
theorem SpaceOk.room (h : SpaceOk A K P ms s)
    (htidy : Tidy ms.p4Phys (s.priv userHalf ms.p4Phys).tables) (hnodup : pages.Nodup)
    (hpages : ∀ p ∈ pages, p.IsPage ∧ p.asU64.toNat < UserEnd)
    (hfree : ∀ p ∈ pages, ms.translate s p = none) (hframes : A.Supplies n s.alloc) :
    Room A userHalf ms.p4Phys pages n s := by
  have hinv := h.spaces.each _ h.space
  refine ⟨hinv.tree, htidy, fun p hp => ⟨(hpages p hp).1, userHalf_of_lt (hpages p hp).2⟩, hnodup,
    fun p hp l => ?_, hframes⟩
  rw [pageLeaf_priv hinv (userHalf_of_lt (hpages p hp).2)]
  by_contra hne
  obtain ⟨e, hl⟩ := ne_none_iff_exists'.mp hne
  have hnone := hfree p hp
  rw [MemorySet.translate_eq_mapper h.offset, translate_of_pageLeaf hl] at hnone
  cases hnone

end Space

/-! ## Stores -/

section Store

variable {w : VirtAddr × UInt8}

/-- A store to a user page changes no table. -/
theorem SpaceOk.writeByte_row (h : SpaceOk A K P ms s) (hw : w.1.asU64.toNat < UserEnd)
    (ht : TableFrame userHalf K P s t) : (ms.writeByte s w).tables t = s.tables t := by
  rw [MemorySet.writeByte]
  cases hp : ms.translate s w.1 with
  | none => rfl
  | some p =>
    refine Function.update_of_ne ?_ _ _
    rintro rfl
    exact (h.frames w.1 hw p hp).2.2 ht

/-- A store changes nothing but bytes. -/
theorem MemorySet.writeByte_rest (ms : MemorySet) (s : MmState σ) (w : VirtAddr × UInt8) :
    (ms.writeByte s w).alloc = s.alloc ∧ (ms.writeByte s w).counts = s.counts ∧
      (ms.writeByte s w).physOffset = s.physOffset := by
  unfold MemorySet.writeByte
  split <;> exact ⟨rfl, rfl, rfl⟩

/-- Stores to user pages keep the space in order, and the leaves as they are. -/
theorem SpaceOk.writeByte (h : SpaceOk A K P ms s) (hw : w.1.asU64.toNat < UserEnd) :
    SpaceOk A K P ms (ms.writeByte s w) ∧
      (Tidy ms.p4Phys (s.priv userHalf ms.p4Phys).tables →
        Tidy ms.p4Phys ((ms.writeByte s w).priv userHalf ms.p4Phys).tables) ∧
      ∀ l v, pageLeaf (ms.writeByte s w).tables ms.p4Phys l v = pageLeaf s.tables ms.p4Phys l v := by
  obtain ⟨halloc, hcounts, hoff⟩ := ms.writeByte_rest s w
  have hrow : ∀ t, TableFrame userHalf K P s t → (ms.writeByte s w).tables t = s.tables t :=
    fun _ ht => h.writeByte_row hw ht
  have htrans : ∀ v, ms.translate (ms.writeByte s w) v = ms.translate s v := fun v =>
    MemorySet.translate_of_rows hoff fun q t ht => hrow t (h.spaces.tableFrame h.space ht)
  refine ⟨⟨h.spaces.fill hrow (by rw [halloc]) hcounts, h.space, hoff ▸ h.offset, fun v hv p hp => ?_⟩,
    fun htidy => htidy.congr fun q t ht => priv_row (hrow t ?_).symm,
    fun l v => h.spaces.fill_leaves hrow h.space _ _⟩
  · obtain ⟨hframe, hheld, hno⟩ := h.frames v hv p ((htrans v).symm.trans hp)
    refine ⟨hframe, halloc ▸ hheld, ?_⟩
    rintro (hK | ⟨p4', hp4', q, hq⟩)
    · exact hno (.inl hK)
    · exact hno (.inr ⟨p4', hp4', q, (fill_tables hrow hp4' q).symm.trans hq⟩)
  · exact .inr ⟨ms.p4Phys, h.space, q, (fill_tables hrow h.space q).symm.trans ht⟩

end Store

/-! ## Walks -/

section Walk

variable {s : MmState σ} {v : VirtAddr}

/-- The entries read for an address with a 4 KiB leaf are three links and the leaf. -/
theorem walkEntries_of_leaf (h : MapperInv A p4 (s.priv userHalf p4))
    (htidy : Tidy p4 (s.priv userHalf p4).tables) (hU : userHalf v.p4Index = true)
    (hleaf : pageLeaf s.tables p4 .small v = some e) :
    ∀ e' ∈ walkEntries s.tables p4 v, e'.flags = linkFlags ∨ e' = e := by
  obtain ⟨p1, hp1, he, -⟩ := leafOf_eq_some.mp hleaf
  have hpath : PageLevel.small.path v = [v.p4Index] ++ [v.p3Index] ++ [v.p2Index] := rfl
  rw [hpath, tableOf_snoc] at hp1
  obtain ⟨p2, hp2, hc2⟩ := bind_eq_some_iff.mp hp1
  have hp2' := hp2
  rw [tableOf_snoc] at hp2'
  obtain ⟨p3, hp3, hc3⟩ := bind_eq_some_iff.mp hp2'
  have hp3' := hp3
  rw [← nil_append [v.p4Index], tableOf_snoc] at hp3'
  obtain ⟨_, hroot, hc4⟩ := bind_eq_some_iff.mp hp3'
  obtain rfl := Option.some.inj hroot
  -- The tables on the way are private, and tidy.
  have hrow : ∀ q t i, tableOf s.tables p4 (v.p4Index :: q) = some t →
      TidyEntry (q.length + 1) (s.tables t i) := by
    intro q t i ht
    have ht' := (tableOf_priv h hU q).trans ht
    have hne : t ≠ p4 := h.table_ne ht' (cons_ne_nil _ _)
    have hsame : (s.priv userHalf p4).tables t = s.tables t := shade_tables_of_ne hne
    rw [← hsame]
    exact htidy _ t ht' i
  have htop : TidyEntry 0 (s.tables p4 v.p4Index) := by
    have hsame : (s.priv userHalf p4).tables p4 v.p4Index = s.tables p4 v.p4Index :=
      shade_entry fun _ => hU
    rw [← hsame]
    exact htidy [] p4 rfl v.p4Index
  have h4 := htop.flags_eq hc4
  have h3 := (hrow [] p3 v.p3Index hp3).flags_eq hc3
  have h2 := (hrow [v.p3Index] p2 v.p2Index hp2).flags_eq hc2
  have hhuge : ∀ e' : PageTableEntry, e'.flags = linkFlags → e'.huge = false := by
    intro e' he'
    rw [PageTableEntry.huge, he']
    decide
  obtain ⟨hpr4, had4⟩ := of_child hc4
  obtain ⟨hpr3, had3⟩ := of_child hc3
  obtain ⟨hpr2, had2⟩ := of_child hc2
  simp only [walkEntries, hpr4, had4, hpr3, had3, hhuge _ h3, hpr2, had2, hhuge _ h2, Bool.not_true,
    Bool.or_self, Bool.false_eq_true, if_false, forall_mem_cons]
  exact ⟨.inl h4, .inl h3, .inl h2, .inr he, fun _ hmem => absurd hmem not_mem_nil⟩

end Walk

/-! ## The pages of a range -/

section Range

variable {start stop v : VirtAddr}

/-- No page of a range is listed twice. -/
theorem nodup_pagesBetween : (pagesBetween start stop).Nodup := by
  refine List.Nodup.map_on (fun k hk k' hk' heq => ?_) nodup_range
  rw [mem_range] at hk hk'
  have hnat := congrArg (fun v : VirtAddr => v.asU64.toNat) heq
  simp only [toNat_page hk, toNat_page hk'] at hnat
  omega

section

variable (hstart : start.asU64.toNat % 4096 = 0)

include hstart

/-- The pages of a range that is a whole number of pages are its addresses. -/
theorem inPages_pagesBetween (haligned : stop.asU64.toNat % 4096 = 0) :
    InPages (pagesBetween start stop) v ↔
      start.asU64.toNat ≤ v.asU64.toNat ∧ v.asU64.toNat < stop.asU64.toNat := by
  constructor
  · rintro ⟨page, hpage, hsame⟩
    obtain ⟨k, hk, hlt⟩ := mem_pagesBetween_iff.mp hpage
    omega
  · rintro ⟨hle, hlt⟩
    have hdown := v.toNat_alignDown_page
    exact ⟨v.alignDown 4096, mem_pagesBetween_iff.mpr
      ⟨(v.asU64.toNat - start.asU64.toNat) / 4096, by omega, by omega⟩, by omega⟩

/-- The pages of a whole number of user pages. -/
theorem isPage_of_mem_pagesBetween (hstop : stop.asU64.toNat ≤ UserEnd)
    (h : page ∈ pagesBetween start stop) : page.IsPage ∧ page.asU64.toNat < UserEnd := by
  obtain ⟨k, hk, hlt⟩ := mem_pagesBetween_iff.mp h
  have hend := hlt.trans_le hstop
  exact ⟨⟨.inl hend, by omega⟩, hend⟩

theorem pages_of_aligned (haligned : stop.asU64.toNat % 4096 = 0) (hstop : stop.asU64.toNat ≤ UserEnd)
    (flags : PageTableFlags) : (MemoryArea.new start stop flags).pages = pagesBetween start stop := by
  have hdown : start.alignDown 4096 = start := by
    ext1
    apply UInt64.toNat_inj.mp
    rw [VirtAddr.toNat_alignDown_page]
    omega
  have hup : stop.alignUp 4096 = stop := by
    ext1
    apply UInt64.toNat_inj.mp
    rw [VirtAddr.toNat_alignUp_page hstop]
    omega
  rw [MemoryArea.pages, MemoryArea.new]
  simp [hdown, hup]

end

end Range

section MapUserRange

variable {ms ms' : MemorySet} {s s' : MmState σ} {start stop : VirtAddr} {flags : PageTableFlags}

/-- An area of the address space contains the address. -/
def MemorySet.Covers (ms : MemorySet) (v : VirtAddr) : Prop :=
  ∃ a ∈ ms.vma.areasInOrder, a.contains v = true

theorem MemorySet.covers_iff : ms.Covers v ↔ ∃ flags, ms.vma.flagsAt v = some flags := by
  simp only [ms.vma_good.flagsAt_eq_some, MemorySet.Covers, VmaTree.areasInOrder_eq]
  constructor
  · rintro ⟨a, ha, hin⟩
    exact ⟨a.flags, a, ha, hin, rfl⟩
  · rintro ⟨_, a, ha, hin, -⟩
    exact ⟨a, ha, hin⟩

/-- The space with the same P4 is in the same order. -/
theorem SpaceOk.congr (h : SpaceOk A K P ms s) (hp4 : ms'.p4Phys = ms.p4Phys) :
    SpaceOk A K P ms' s := by
  refine ⟨h.spaces, hp4 ▸ h.space, h.offset, fun v hv p hp => h.frames v hv p ?_⟩
  rwa [MemorySet.translate_eq_mapper h.offset, hp4, ← MemorySet.translate_eq_mapper h.offset] at hp

/-- Mapping a range is the loop over its pages, and recording the area. -/
theorem MemorySet.mapUserRange_eq (hoff : s.physOffset.isSome) (hlt : start.asU64 < stop.asU64)
    (hstart : start.asU64.toNat % 4096 = 0) (haligned : stop.asU64.toNat % 4096 = 0)
    (hstop : stop.asU64.toNat ≤ UserEnd) :
    ms.mapUserRange A start stop flags s =
      match pushPages A ms.p4Phys (.new start stop flags) none (pagesBetween start stop) [] s with
      | (.error e, s) => (.error e, ms, s)
      | (.ok (), s) => ((ms.insertArea (.new start stop flags)).1.mapError .err,
          (ms.insertArea (.new start stop flags)).2, s) := by
  have hge : ¬ start.asU64 ≥ stop.asU64 := UInt64.not_le.mpr hlt
  have hsome : ¬ (s.physOffset.isNone = true) := by
    rw [isNone_iff_eq_none]
    rintro hnone
    rw [hnone] at hoff
    cases hoff
  rw [← pages_of_aligned hstart haligned hstop flags]
  exact (if_neg hge).trans (if_neg hsome)

/-- Recording an area fails exactly if it meets another one. -/
theorem MemorySet.insertArea_iff (ms : MemorySet) (hlt : start.asU64 < stop.asU64) :
    (ms.insertArea (.new start stop flags)).1 = .ok () ↔
      ∀ v, ms.Covers v → ¬ (start.asU64 ≤ v.asU64 ∧ v.asU64 < stop.asU64) := by
  have herr := (VmaTree.insertArea_exact ms.vma_good.repInv (.new start stop flags)).1
  have hne : ¬ (MemoryArea.new start stop flags).end.asU64 ≤ (MemoryArea.new start stop flags).start.asU64 :=
    UInt64.not_le.mpr hlt
  rw [or_iff_right hne] at herr
  rw [MemorySet.insertArea]
  constructor
  · rintro hok v ⟨a, ha, hin⟩ hv
    obtain ⟨e, he⟩ := herr.mpr ⟨a, ha, v, hin, MemoryArea.contains_iff.mpr hv⟩
    rw [hok] at he
    cases he
  · intro hfree
    cases hres : (ms.vma.insertArea (.new start stop flags)).1 with
    | ok => rfl
    | error e =>
      obtain ⟨a, ha, v, hin, hv⟩ := herr.mp ⟨e, hres⟩
      exact absurd (MemoryArea.contains_iff.mp hv) (hfree v ⟨a, ha, hin⟩)

/-- A range that was mapped is recorded, and was free before. -/
theorem MemorySet.mapUserRange_spec (h : SpaceOk A K P ms s) (hlt : start.asU64 < stop.asU64)
    (hstart : start.asU64.toNat % 4096 = 0) (haligned : stop.asU64.toNat % 4096 = 0)
    (hstop : stop.asU64.toNat ≤ UserEnd) (hhuge : flags.contains .HUGE_PAGE = false)
    (hrun : ms.mapUserRange A start stop flags s = (.ok (), ms', s')) :
    SpaceOk A K P ms' s' ∧ ms'.p4Phys = ms.p4Phys ∧
      PagesAdded ms flags (pagesBetween start stop) s s' ∧
      (∀ v, ms.Covers v → ¬ (start.asU64 ≤ v.asU64 ∧ v.asU64 < stop.asU64)) ∧
      ∀ v, ms'.Covers v ↔ ms.Covers v ∨ start.asU64 ≤ v.asU64 ∧ v.asU64 < stop.asU64 := by
  rw [MemorySet.mapUserRange_eq h.offset hlt hstart haligned hstop] at hrun
  rcases hpush : pushPages A ms.p4Phys (.new start stop flags) none (pagesBetween start stop) [] s
    with ⟨e | _, s₁⟩
  · rw [hpush] at hrun
    cases hrun
  rw [hpush] at hrun
  simp only [Prod.mk.injEq] at hrun
  obtain ⟨hres, rfl, rfl⟩ := hrun
  have hok : (ms.insertArea (.new start stop flags)).1 = .ok () := by
    cases hins : (ms.insertArea (.new start stop flags)).1 with
    | ok => rfl
    | error e =>
      rw [hins] at hres
      cases hres
  have hsmall : (MemoryArea.new start stop flags).flags.contains .HUGE_PAGE = false := hhuge
  obtain ⟨hspace, hadd⟩ := pushPages_spec hsmall
    (fun p hp => isPage_of_mem_pagesBetween hstart hstop hp) h hpush
  refine ⟨hspace.congr rfl, rfl, hadd, (ms.insertArea_iff hlt).mp hok, fun v => ?_⟩
  have hflags : (ms.insertArea (.new start stop flags)).2.vma.flagsAt v =
      if (MemoryArea.new start stop flags).contains v then some flags else ms.vma.flagsAt v :=
    (VmaTree.insertArea_exact ms.vma_good.repInv (.new start stop flags)).2 hok v
  have hin : (MemoryArea.new start stop flags).contains v = true ↔
      start.asU64 ≤ v.asU64 ∧ v.asU64 < stop.asU64 := MemoryArea.contains_iff
  rw [MemorySet.covers_iff, MemorySet.covers_iff, hflags, ← hin]
  split
  · next hc => simp [hc]
  · next hc => simp [hc]

/-- A free range can be mapped, given frames. -/
theorem MemorySet.mapUserRange_ok (h : SpaceOk A K P ms s)
    (htidy : Tidy ms.p4Phys (s.priv userHalf ms.p4Phys).tables) (hlt : start.asU64 < stop.asU64)
    (hstart : start.asU64.toNat % 4096 = 0) (haligned : stop.asU64.toNat % 4096 = 0)
    (hstop : stop.asU64.toNat ≤ UserEnd) (hhuge : flags.contains .HUGE_PAGE = false)
    (hfree : ∀ page ∈ pagesBetween start stop, ms.translate s page = none)
    (hclear : ∀ v, ms.Covers v → ¬ (start.asU64 ≤ v.asU64 ∧ v.asU64 < stop.asU64))
    (hframes : A.Supplies (4 * (pagesBetween start stop).length) s.alloc) :
    ∃ ms' s', ms.mapUserRange A start stop flags s = (.ok (), ms', s') ∧
      Tidy ms.p4Phys (s'.priv userHalf ms.p4Phys).tables := by
  have hsmall : (MemoryArea.new start stop flags).flags.contains .HUGE_PAGE = false := hhuge
  obtain ⟨s', hpush, htidy'⟩ := pushPages_ok hsmall [] (h.room htidy nodup_pagesBetween
    (fun p hp => isPage_of_mem_pagesBetween hstart hstop hp) hfree hframes)
  have hok : (ms.insertArea (.new start stop flags)).1 = .ok () := (ms.insertArea_iff hlt).mpr hclear
  refine ⟨(ms.insertArea (.new start stop flags)).2, s', ?_, htidy'⟩
  rw [MemorySet.mapUserRange_eq h.offset hlt hstart haligned hstop, hpush]
  simp only [hok]
  rfl

end MapUserRange

end BoruixKernel
