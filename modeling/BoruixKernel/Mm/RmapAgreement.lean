import BoruixKernel.Mm.Spaces

/-!
# The reverse map and the page tables

`map_page`, `unmap_page` and `migrate_page_nolock` update the reverse map next to the
leaf entry.  `RmapAgrees` says that it is the inverse of the user leaves of 4 KiB:  it
has an entry for a frame, a P4 and an address exactly if the leaf of the address points
to the frame and is accessible to the user, and no entry twice.

Adding and clearing a leaf are the two steps (`RmapAgrees.add`, `RmapAgrees.clear`), and
`SpacesRun.rmapAgrees` is the result for calls on any number of P4s.  A migration is an
unmapping and one or two mappings.  `SpacesRun.isolated` says that such calls change no translation
of another address space.
-/

namespace BoruixKernel

open PointerTrie List

/-! ## Migrating a page -/

section Calls

variable {σ : Type} (A : FrameAllocator σ)

/-- `migrate_page_nolock`: map a page to another frame.  If that fails, the old mapping is
put back, and it is not checked whether this succeeds. -/
def migratePageNolock (p4 : PhysAddr) (page : VirtAddr) (newFrame : PhysAddr)
    (flags : PageTableFlags) (s : MmState σ) : MapResult σ PhysAddr :=
  (unmapPageInner A p4 page s).andThen fun old s =>
    match mapPageInner A p4 page newFrame flags s with
    | (.ok (), s) => (.ok old, s)
    | (.error (.panic msg), s) => (.error (.panic msg), s)
    | (.error (.err e), s) =>
      match mapPageInner A p4 page old flags s with
      | (.error (.panic msg), s) => (.error (.panic msg), s)
      | (_, s) => (.error (.err e), s)

/-- A call of one of the three operations. -/
inductive SpaceCall where
  | map (page : VirtAddr) (frame : PhysAddr) (flags : PageTableFlags)
  | unmap (page : VirtAddr)
  | migrate (page : VirtAddr) (newFrame : PhysAddr) (flags : PageTableFlags)

namespace SpaceCall

def page : SpaceCall → VirtAddr
  | map page _ _ | unmap page | migrate page _ _ => page

/-- The frame the page is to be mapped to. -/
def frame? : SpaceCall → Option PhysAddr
  | map _ frame _ | migrate _ frame _ => some frame
  | unmap _ => none

/-- All addresses are multiples of the page size. -/
def PageAligned (c : SpaceCall) : Prop :=
  c.page.asU64.toNat % 4096 = 0 ∧ ∀ frame ∈ c.frame?, frame.asU64.toNat % 4096 = 0

/-- Page-aligned addresses, the virtual one canonical and the physical one below `2^52`. -/
def WellFormed (c : SpaceCall) : Prop :=
  c.PageAligned ∧ c.page.Canonical ∧ ∀ frame ∈ c.frame?, frame.asU64.toNat < 2 ^ 52

end SpaceCall

def performSpaceCall (p4 : PhysAddr) (c : SpaceCall) (s : MmState σ) :
    MapResult σ (Option PhysAddr) :=
  match c with
  | .map page frame flags =>
    (mapPageInner A p4 page frame flags s).andThen fun _ s => (.ok none, s)
  | .unmap page => (unmapPageInner A p4 page s).andThen fun old s => (.ok (some old), s)
  | .migrate page newFrame flags =>
    (migratePageNolock A p4 page newFrame flags s).andThen fun old s => (.ok (some old), s)

/-- The states after calls that returned, each under one of the P4s.  A call that panics
ends the sequence. -/
inductive SpacesRun (P : Set PhysAddr) (ok : SpaceCall → Prop) (s₀ : MmState σ) :
    MmState σ → Prop
  | start : SpacesRun P ok s₀ s₀
  | call {s s' : MmState σ} {p4 : PhysAddr} {c : SpaceCall}
      {r : Except MapError (Option PhysAddr)} (hrun : SpacesRun P ok s₀ s) (hp4 : p4 ∈ P)
      (hc : ok c) (hcall : performSpaceCall A p4 c s = (r.mapError .err, s')) :
      SpacesRun P ok s₀ s'

end Calls

/-! ## Agreement -/

/-- The leaf of 4 KiB of an address points to the frame and is accessible to the user.
It is present, as all leaves are. -/
def UserLeaf (T : PhysAddr → PageTable) (p4 : PhysAddr) (v : VirtAddr) (frame : PhysAddr) : Prop :=
  ∃ e, pageLeaf T p4 .small v = some e ∧ e.flags.contains .USER_ACCESSIBLE = true ∧ e.addr = frame

/-- The start of a page. -/
def VirtAddr.IsPage (v : VirtAddr) : Prop := v.Canonical ∧ v.asU64.toNat % 4096 = 0

/-- The page and the address space of an entry. -/
def RmapEntry.key (r : RmapEntry) : PhysAddr × VirtAddr := (r.p4Phys, r.vaddr)

/-- The reverse map is the inverse of the user leaves under the P4s. -/
structure RmapAgrees {σ : Type} (P : Set PhysAddr) (s : MmState σ) : Prop where
  /-- There are no entries for other address spaces or addresses. -/
  known : ∀ frame, ∀ r ∈ rmapLookup s.rmap frame, r.p4Phys ∈ P ∧ r.vaddr.IsPage
  /-- There is an entry exactly if there is a leaf. -/
  leaf_iff : ∀ p4 ∈ P, ∀ v : VirtAddr, v.IsPage → ∀ frame,
    (∃ r ∈ rmapLookup s.rmap frame, r.key = (p4, v)) ↔ UserLeaf s.tables p4 v frame
  /-- There is no entry twice. -/
  once : ∀ frame, ((rmapLookup s.rmap frame).map RmapEntry.key).Nodup
  /-- The flags of an entry are those the leaf was mapped with. -/
  flags : ∀ frame, ∀ r ∈ rmapLookup s.rmap frame, ∀ e,
    pageLeaf s.tables r.p4Phys .small r.vaddr = some e →
      e.flags = r.flags ||| .PRESENT ∧ r.flags.contains .USER_ACCESSIBLE = true ∧
        r.flags.contains .HUGE_PAGE = false

theorem eq_of_page {v w : VirtAddr} (hv : v.IsPage) (hw : w.IsPage)
    (h : v.asU64.toNat / 4096 = w.asU64.toNat / 4096) : v = w := by
  ext1
  apply UInt64.toNat_inj.mp
  have hv' := hv.2
  have hw' := hw.2
  omega

section Agreement

variable {A : FrameAllocator σ} {K P : Set PhysAddr} {p4 : PhysAddr} {s s' s₀ : MmState σ}
  {page : VirtAddr} {frame : PhysAddr} {flags : PageTableFlags}

/-- Nothing changes where user leaves are. -/
theorem RmapAgrees.congr (h : RmapAgrees P s) (hrmap : s'.rmap = s.rmap)
    (hleaf : ∀ p4 ∈ P, ∀ v : VirtAddr, v.IsPage →
      pageLeaf s'.tables p4 .small v = pageLeaf s.tables p4 .small v) : RmapAgrees P s' := by
  constructor
  · rw [hrmap]
    exact h.known
  · intro p4 hp4 v hv frame
    rw [hrmap, h.leaf_iff p4 hp4 v hv]
    simp [UserLeaf, hleaf p4 hp4 v hv]
  · rw [hrmap]
    exact h.once
  · intro frame r hr e he
    rw [hrmap] at hr
    obtain ⟨hp4, hv⟩ := h.known frame r hr
    rw [hleaf _ hp4 _ hv] at he
    exact h.flags frame r hr e he

/-- The leaf of one page is replaced, and the entry of the page with it. -/
theorem RmapAgrees.replace (h : RmapAgrees P s) (hp4 : p4 ∈ P) (hpage : page.IsPage)
    (flags : PageTableFlags) (hnew : ∀ e ∈ new, e.flags = flags ||| .PRESENT ∧
      e.flags.contains .USER_ACCESSIBLE = flags.contains .USER_ACCESSIBLE ∧
      flags.contains .HUGE_PAGE = false)
    (hleaf : ∀ p4' ∈ P, ∀ v : VirtAddr, v.IsPage → pageLeaf s'.tables p4' .small v =
      if p4' = p4 ∧ v = page then new else pageLeaf s.tables p4' .small v)
    (hmem : ∀ frame r, r ∈ rmapLookup s'.rmap frame ↔
      (r ∈ rmapLookup s.rmap frame ∧ r.key ≠ (p4, page)) ∨
        (∃ e ∈ new, e.flags.contains .USER_ACCESSIBLE = true ∧ e.addr = frame) ∧
          r = ⟨p4, page, flags⟩)
    (honce : ∀ frame, ((rmapLookup s'.rmap frame).map RmapEntry.key).Nodup) :
    RmapAgrees P s' := by
  have hself : pageLeaf s'.tables p4 .small page = new := by
    rw [hleaf p4 hp4 page hpage, if_pos ⟨rfl, rfl⟩]
  refine ⟨fun frame r hr => ?_, fun p4' hp4' v hv frame => ?_, honce, fun frame r hr e he => ?_⟩
  · rcases (hmem frame r).mp hr with ⟨hr, -⟩ | ⟨-, rfl⟩
    · exact h.known frame r hr
    · exact ⟨hp4, hpage⟩
  · by_cases hkey : (p4', v) = (p4, page)
    · obtain ⟨rfl, rfl⟩ := Prod.mk.inj hkey
      rw [UserLeaf, hself]
      constructor
      · rintro ⟨r, hr, hrkey⟩
        rcases (hmem frame r).mp hr with ⟨-, hne⟩ | ⟨⟨e, he, huser⟩, -⟩
        · exact absurd hrkey hne
        · exact ⟨e, he, huser⟩
      · rintro ⟨e, he, huser⟩
        exact ⟨_, (hmem frame _).mpr (.inr ⟨⟨e, he, huser⟩, rfl⟩), rfl⟩
    · rw [UserLeaf, hleaf p4' hp4' v hv, if_neg fun hc => hkey (Prod.ext hc.1 hc.2), ← UserLeaf,
        ← h.leaf_iff p4' hp4' v hv]
      constructor
      · rintro ⟨r, hr, hrkey⟩
        rcases (hmem frame r).mp hr with ⟨hr, -⟩ | ⟨-, rfl⟩
        · exact ⟨r, hr, hrkey⟩
        · exact absurd hrkey.symm hkey
      · rintro ⟨r, hr, hrkey⟩
        exact ⟨r, (hmem frame r).mpr (.inl ⟨hr, hrkey ▸ hkey⟩), hrkey⟩
  · rcases (hmem frame r).mp hr with ⟨hr, hne⟩ | ⟨⟨e', he', huser, -⟩, rfl⟩
    · obtain ⟨hp4', hv⟩ := h.known frame r hr
      rw [hleaf _ hp4' _ hv, if_neg fun hc => hne (Prod.ext hc.1 hc.2)] at he
      exact h.flags frame r hr e he
    · rw [hself] at he
      obtain rfl : e' = e := Option.some.inj (he'.symm.trans he)
      obtain ⟨hflags, hsame, hhuge⟩ := hnew e' he'
      exact ⟨hflags, hsame ▸ huser, hhuge⟩

/-- A page without a leaf has no entry. -/
theorem RmapAgrees.key_ne (h : RmapAgrees P s) (hp4 : p4 ∈ P) (hpage : page.IsPage)
    (hno : ¬ UserLeaf s.tables p4 page frame) (hr : r ∈ rmapLookup s.rmap frame) :
    r.key ≠ (p4, page) := fun hkey =>
  hno ((h.leaf_iff p4 hp4 page hpage frame).mp ⟨r, hr, hkey⟩)

/-- The present bit does not matter for the user bit. -/
theorem contains_user_or_present (flags : PageTableFlags) :
    (flags ||| .PRESENT).contains .USER_ACCESSIBLE = flags.contains .USER_ACCESSIBLE := by
  have hbits : (PageTableFlags.PRESENT.bits &&& PageTableFlags.USER_ACCESSIBLE.bits) = 0 := by
    decide
  simp [PageTableFlags.contains, PageTableFlags.or_bits, UInt64.or_and_distrib_right, hbits, UInt64.or_zero]

theorem RmapAgrees.add (h : RmapAgrees P s) (hp4 : p4 ∈ P) (hpage : page.IsPage)
    (hframe : frame.Frame) (hhuge : flags.contains .HUGE_PAGE = false)
    (hvacant : pageLeaf s.tables p4 .small page = none)
    (hleaf : ∀ p4' ∈ P, ∀ v : VirtAddr, v.IsPage → pageLeaf s'.tables p4' .small v =
      if p4' = p4 ∧ v = page then some (.pack frame (flags ||| .PRESENT))
      else pageLeaf s.tables p4' .small v)
    (hrmap : s'.rmap = PageLevel.small.record s.rmap frame p4 page flags) : RmapAgrees P s' := by
  have hflags := PageTableEntry.flags_pack hframe (flags ||| .PRESENT)
  have hno : ∀ f, ¬ UserLeaf s.tables p4 page f := by
    rintro f ⟨e, he, -⟩
    rw [hvacant] at he
    cases he
  have hne : ∀ {f r}, r ∈ rmapLookup s.rmap f → r.key ≠ (p4, page) := fun hr =>
    h.key_ne hp4 hpage (hno _) hr
  have hlookup : ∀ f, rmapLookup s'.rmap f =
      if flags.contains .USER_ACCESSIBLE = true ∧ f = frame then
        rmapLookup s.rmap f ++ [⟨p4, page, flags⟩] else rmapLookup s.rmap f := by
    intro f
    rw [hrmap, PageLevel.record]
    by_cases huser : flags.contains .USER_ACCESSIBLE = true
    · rw [if_pos ⟨rfl, huser⟩, rmapLookup_rmapAdd]
      simp only [huser, true_and]
      split
      · next heq => rw [heq]
      · rfl
    · rw [if_neg fun hc => huser hc.2, if_neg fun hc => huser hc.1]
  refine h.replace hp4 hpage flags (fun e he => ?_) hleaf (fun f r => ?_) fun f => ?_
  · cases he
    exact ⟨hflags, by rw [hflags, contains_user_or_present], hhuge⟩
  · rw [hlookup]
    simp only [Option.mem_some_iff, exists_eq_left', hflags, contains_user_or_present,
      PageTableEntry.addr_pack hframe]
    split
    · next hc =>
      rw [mem_append, mem_singleton]
      constructor
      · rintro (hr | hr)
        · exact .inl ⟨hr, hne hr⟩
        · exact .inr ⟨⟨hc.1, hc.2.symm⟩, hr⟩
      · rintro (⟨hr, -⟩ | ⟨-, hr⟩)
        · exact .inl hr
        · exact .inr hr
    · next hc =>
      constructor
      · exact fun hr => .inl ⟨hr, hne hr⟩
      · rintro (⟨hr, -⟩ | ⟨⟨huser, hf⟩, -⟩)
        · exact hr
        · exact absurd ⟨huser, hf.symm⟩ hc
  · rw [hlookup]
    split
    · rw [map_append, map_singleton, nodup_append]
      refine ⟨h.once f, nodup_singleton _, fun a ha b hb => ?_⟩
      obtain ⟨r, hr, rfl⟩ := mem_map.mp ha
      rw [mem_singleton.mp hb]
      exact hne hr
    · exact h.once f

theorem RmapAgrees.clear (h : RmapAgrees P s) (hp4 : p4 ∈ P) (hpage : page.IsPage)
    (hmapped : pageLeaf s.tables p4 .small page = some e)
    (hleaf : ∀ p4' ∈ P, ∀ v : VirtAddr, v.IsPage → pageLeaf s'.tables p4' .small v =
      if p4' = p4 ∧ v = page then none else pageLeaf s.tables p4' .small v)
    (hrmap : s'.rmap = PageLevel.small.forget s.rmap e p4 page) : RmapAgrees P s' := by
  have huser : ∀ {f}, UserLeaf s.tables p4 page f →
      e.flags.contains .USER_ACCESSIBLE = true ∧ e.addr = f := by
    rintro f ⟨e', he', hprop⟩
    rw [hmapped] at he'
    cases he'
    exact hprop
  have hlookup : ∀ f, rmapLookup s'.rmap f =
      (rmapLookup s.rmap f).filter fun r => r.key ≠ (p4, page) := by
    intro f
    -- Where nothing is filtered, there is no entry for the page.
    have hsame : ¬ UserLeaf s.tables p4 page f → rmapLookup s.rmap f =
        (rmapLookup s.rmap f).filter fun r => r.key ≠ (p4, page) := fun hno =>
      (filter_eq_self.mpr fun r hr => by simpa using h.key_ne hp4 hpage hno hr).symm
    rw [hrmap, PageLevel.forget]
    by_cases hflag : e.flags.contains .USER_ACCESSIBLE = true
    · rw [if_pos ⟨rfl, hflag⟩, rmapLookup_rmapRemove]
      split
      · next heq =>
        rw [heq]
        refine filter_congr fun r _ => ?_
        rw [Bool.eq_iff_iff]
        simp [RmapEntry.key]
      · next hne => exact hsame fun hleaf' => hne (huser hleaf').2.symm
    · rw [if_neg fun hc => hflag hc.2]
      exact hsame fun hleaf' => hflag (huser hleaf').1
  refine h.replace hp4 hpage .empty (fun e he => by cases he) hleaf (fun f r => ?_)
    fun f => ?_
  · rw [hlookup, mem_filter]
    simp
  · rw [hlookup]
    exact (h.once f).sublist (filter_sublist.map _)

/-! ## Calls -/

/-- The leaves of 4 KiB after a call that replaces the leaf of a page of 4 KiB. -/
theorem SpacesInv.small_step (h : SpacesInv A U K P s) (hp4 : p4 ∈ P) (hs : SpaceStep A U p4 s s')
    (hpage : page.IsPage) (hU : U page.p4Index = true)
    (hleaves : ∀ q j, leafOf (s'.priv U p4).tables p4 q j =
      if q = PageLevel.small.path page ∧ j = PageLevel.small.index page then new
      else leafOf (s.priv U p4).tables p4 q j) :
    ∀ p4' ∈ P, ∀ v : VirtAddr, v.IsPage → pageLeaf s'.tables p4' .small v =
      if p4' = p4 ∧ v = page then new else pageLeaf s.tables p4' .small v := by
  intro p4' hp4' v hv
  rw [h.pageLeaf_step hp4 hs hpage.1 hU hleaves hp4' hv.1]
  refine if_congr (and_congr_right fun _ => ?_) rfl rfl
  constructor
  · exact fun hsame => eq_of_page hv hpage hsame.2
  · rintro rfl
    exact ⟨rfl, rfl⟩

/-- A call that replaces the leaf of a larger page leaves those of 4 KiB alone. -/
theorem SpacesInv.large_step (h : SpacesInv A U K P s) (hp4 : p4 ∈ P) (hs : SpaceStep A U p4 s s')
    (hpage : page.IsPage) (hU : U page.p4Index = true) {l : PageLevel} (hl : l ≠ .small)
    (hleaves : ∀ q j, leafOf (s'.priv U p4).tables p4 q j =
      if q = l.path page ∧ j = l.index page then new else leafOf (s.priv U p4).tables p4 q j) :
    ∀ p4' ∈ P, ∀ v : VirtAddr, v.IsPage →
      pageLeaf s'.tables p4' .small v = pageLeaf s.tables p4' .small v := by
  intro p4' hp4' v hv
  rw [h.pageLeaf_step hp4 hs hpage.1 hU hleaves hp4' hv.1, if_neg]
  exact fun hc => hl hc.2.1.symm

theorem pageLeaf_priv (h : MapperInv A p4 (s.priv U p4)) (hU : U page.p4Index = true)
    (l : PageLevel) : pageLeaf (s.priv U p4).tables p4 l page = pageLeaf s.tables p4 l page := by
  obtain ⟨q, hq⟩ := l.path_cons page
  simp only [pageLeaf, hq]
  exact leafOf_priv h hU q _

theorem huge_of_selectLevel (h : selectLevel page frame flags = .small) :
    flags.contains .HUGE_PAGE = false := by
  unfold selectLevel at h
  split at h
  · split at h <;> cases h
  · next hh => simpa using hh

/-- `map_page` keeps the agreement, whether it succeeds or not. -/
theorem SpacesInv.map_agrees (h : SpacesInv A U K P s) (hr : RmapAgrees P s) (hp4 : p4 ∈ P)
    (hpage : page.IsPage) (hU : U page.p4Index = true) (hlt : frame.asU64.toNat < 2 ^ 52)
    (hrun : mapPageInner A p4 page frame flags s = (res, s')) :
    SpacesInv A U K P s' ∧ RmapAgrees P s' := by
  obtain ⟨hs, hcases⟩ := mapPageInner_space (h.each p4 hp4) hU hlt hrun
  refine ⟨h.step hp4 hs, ?_⟩
  rcases hcases with ⟨-, -, hadd, hrmap⟩ | ⟨-, hgrow⟩
  · by_cases hl : selectLevel page frame flags = .small
    · rw [hl] at hadd hrmap
      have hvacant := (pageLeaf_priv (h.each p4 hp4) hU .small).symm.trans hadd.vacant
      exact hr.add hp4 hpage hadd.framed (huge_of_selectLevel hl) hvacant
        (h.small_step hp4 hs hpage hU hadd.leaves) hrmap
    · refine hr.congr ?_ (h.large_step hp4 hs hpage hU hl hadd.leaves)
      rw [hrmap, PageLevel.record, if_neg fun hc => hl hc.1]
  · exact hr.congr hgrow.rmap fun p4' hp4' v _ => h.pageLeaf_quiet hp4 hs hgrow.leaves hp4' v .small

theorem SpacesInv.unmap_agrees (h : SpacesInv A U K P s) (hr : RmapAgrees P s) (hp4 : p4 ∈ P)
    (hpage : page.IsPage) (hU : U page.p4Index = true)
    (hrun : unmapPageInner A p4 page s = (res, s')) :
    SpacesInv A U K P s' ∧ RmapAgrees P s' := by
  obtain ⟨hs, ⟨l, e, -, hclear, hrmap⟩ | ⟨-, rfl⟩⟩ := unmapPageInner_space (h.each p4 hp4) hU hrun
  · refine ⟨h.step hp4 hs, ?_⟩
    by_cases hl : l = .small
    · subst hl
      have hmapped := (pageLeaf_priv (h.each p4 hp4) hU .small).symm.trans hclear.mapped
      exact hr.clear hp4 hpage hmapped (h.small_step hp4 hs hpage hU hclear.leaves) hrmap
    · refine hr.congr ?_ (h.large_step hp4 hs hpage hU hl hclear.leaves)
      rw [hrmap, PageLevel.forget, if_neg fun hc => hl hc.1]
  · exact ⟨h, hr⟩

/-- The frame of an unmapped page is one an entry can hold. -/
theorem unmapPageInner_frame (h : MapperInv A p4 (s.priv U p4)) (hU : U page.p4Index = true)
    (hrun : unmapPageInner A p4 page s = (.ok old, s')) : old.Frame := by
  obtain ⟨-, ⟨l, e, hold, -⟩ | ⟨hno, -⟩⟩ := unmapPageInner_space h hU hrun
  · cases hold
    exact e.addr_frame
  · cases hno

theorem SpacesInv.migrate_agrees (h : SpacesInv A U K P s) (hr : RmapAgrees P s) (hp4 : p4 ∈ P)
    (hpage : page.IsPage) (hU : U page.p4Index = true) (hlt : frame.asU64.toNat < 2 ^ 52)
    (hrun : migratePageNolock A p4 page frame flags s = (res, s')) :
    SpacesInv A U K P s' ∧ RmapAgrees P s' := by
  unfold migratePageNolock at hrun
  rcases hun : unmapPageInner A p4 page s with ⟨e | old, s1⟩
  · rw [hun] at hrun
    cases hrun
    exact h.unmap_agrees hr hp4 hpage hU hun
  · obtain ⟨h1, hr1⟩ := h.unmap_agrees hr hp4 hpage hU hun
    have hold := (unmapPageInner_frame (h.each p4 hp4) hU hun).2
    rw [hun] at hrun
    simp only [MapResult.andThen] at hrun
    rcases hmap : mapPageInner A p4 page frame flags s1 with ⟨res2, s2⟩
    obtain ⟨h2, hr2⟩ := h1.map_agrees hr1 hp4 hpage hU hlt hmap
    rw [hmap] at hrun
    rcases res2 with (e | msg) | _
    · -- The old mapping is put back, successfully or not.
      simp only [] at hrun
      rcases hback : mapPageInner A p4 page old flags s2 with ⟨res3, s3⟩
      obtain ⟨h3, hr3⟩ := h2.map_agrees hr2 hp4 hpage hU hold hback
      rw [hback] at hrun
      rcases res3 with (e' | msg) | _ <;> cases hrun <;> exact ⟨h3, hr3⟩
    · cases hrun
      exact ⟨h2, hr2⟩
    · cases hrun
      exact ⟨h2, hr2⟩

/-! ## Runs -/

/-- Empty P4s have nothing in common. -/
theorem SpacesInv.start (h0 : ∀ p4 ∈ P, EmptyP4 A p4 s₀) : SpacesInv A (fun _ => true) ∅ P s₀ := by
  have htab : ∀ p4 ∈ P, ∀ q t, tableOf s₀.tables p4 q = some t → t = p4 := by
    intro p4 hp4 q t ht
    rw [tableOf_of_zero (h0 p4 hp4).zero] at ht
    split at ht
    · exact (Option.some.inj ht).symm
    · cases ht
  constructor
  · intro p4 hp4
    rw [priv_univ]
    exact (h0 p4 hp4).inv
  · intro p4 hp4 p4' hp4' hne q q' t ht ht'
    rw [priv_univ] at ht ht'
    exact hne ((htab p4 hp4 q t ht).symm.trans (htab p4' hp4' q' t ht'))
  · exact fun p4 _ i hi => by cases hi
  · exact fun t ht => ht.elim
  · exact fun t ht => ht.elim
  · exact fun p4 _ q t _ ht => ht

theorem RmapAgrees.start (h0 : ∀ p4 ∈ P, EmptyP4 A p4 s₀) (hrmap : s₀.rmap = ∅) :
    RmapAgrees P s₀ := by
  have hempty : ∀ f, rmapLookup s₀.rmap f = [] := by
    intro f
    rw [hrmap]
    exact Std.TreeMap.getD_emptyc
  have hleaf : ∀ p4 ∈ P, ∀ v, pageLeaf s₀.tables p4 .small v = none := by
    intro p4 hp4 v
    simp only [pageLeaf, leafOf, leafAt]
    rw [← tableOf, tableOf_of_zero (h0 p4 hp4).zero, if_neg (by simp [PageLevel.path])]
    rfl
  constructor
  · intro f r hr
    rw [hempty] at hr
    cases hr
  · intro p4 hp4 v _ f
    simp [hempty, UserLeaf, hleaf p4 hp4]
  · intro f
    rw [hempty]
    exact nodup_nil
  · intro f r hr
    rw [hempty] at hr
    cases hr

/-- Turning the value of a call into another one leaves its state. -/
theorem state_of_andThen {α β : Type} {r : MapResult σ α} {g : α → β} {res : Except MapFault β}
    (h : r.andThen (fun a s => (.ok (g a), s)) = (res, s')) : s' = r.2 := by
  rcases r with ⟨_ | _, s1⟩ <;> cases h <;> rfl

/-- One call under one of the P4s. -/
theorem SpacesInv.call_agrees (h : SpacesInv A (fun _ => true) ∅ P s) (hr : RmapAgrees P s)
    (hp4 : p4 ∈ P) (hc : c.WellFormed) (hcall : performSpaceCall A p4 c s = (res, s')) :
    SpacesInv A (fun _ => true) ∅ P s' ∧ RmapAgrees P s' := by
  obtain ⟨⟨halign, -⟩, hcan, hframe⟩ := hc
  have hpage : c.page.IsPage := ⟨hcan, halign⟩
  cases c with
  | map page frame flags =>
    obtain rfl := state_of_andThen hcall
    exact h.map_agrees hr hp4 hpage rfl (hframe frame rfl) rfl
  | unmap page =>
    obtain rfl := state_of_andThen hcall
    exact h.unmap_agrees hr hp4 hpage rfl rfl
  | migrate page frame flags =>
    obtain rfl := state_of_andThen hcall
    exact h.migrate_agrees hr hp4 hpage rfl (hframe frame rfl) rfl

/-- After any calls on any number of P4s that were empty at first, the reverse map agrees
with the page tables. -/
theorem SpacesRun.rmapAgrees (h₀ : ∀ p4 ∈ P, EmptyP4 A p4 s₀) (hrmap : s₀.rmap = ∅)
    (hrun : SpacesRun A P SpaceCall.WellFormed s₀ s) : RmapAgrees P s := by
  have hinv : SpacesInv A (fun _ => true) ∅ P s ∧ RmapAgrees P s := by
    induction hrun with
    | start => exact ⟨.start h₀, .start h₀ hrmap⟩
    | call _ hp4 hc hcall ih => exact ih.1.call_agrees ih.2 hp4 hc hcall
  exact hinv.2

end Agreement

/-! ## The other address spaces -/

section Isolation

variable {A : FrameAllocator σ} {p4 : PhysAddr} {s s' s₀ : MmState σ} {c : SpaceCall}

open Relation

/-- A call is made of steps for its address space, also if it fails or panics halfway. -/
theorem performSpaceCall_steps (h : MapperInv A p4 (s.priv U p4)) (hU : U c.page.p4Index = true)
    (hlt : ∀ frame ∈ c.frame?, frame.asU64.toNat < 2 ^ 52)
    (hcall : performSpaceCall A p4 c s = (res, s')) : ReflTransGen (SpaceStep A U p4) s s' := by
  cases c with
  | map page frame flags =>
    obtain rfl := state_of_andThen hcall
    exact .single (mapPageInner_space h hU (hlt frame rfl) rfl).1
  | unmap page =>
    obtain rfl := state_of_andThen hcall
    exact .single (unmapPageInner_space h hU rfl).1
  | migrate page frame flags =>
    obtain rfl := state_of_andThen hcall
    unfold migratePageNolock
    rcases hun : unmapPageInner A p4 page s with ⟨e | old, s₁⟩
    · exact .single (unmapPageInner_space h hU hun).1
    · have hstep₁ := (unmapPageInner_space h hU hun).1
      have hold := (unmapPageInner_frame h hU hun).2
      simp only [MapResult.andThen]
      rcases hmap : mapPageInner A p4 page frame flags s₁ with ⟨res₂, s₂⟩
      have hstep₂ := (mapPageInner_space hstep₁.inv hU (hlt frame rfl) hmap).1
      have hsteps := (ReflTransGen.single hstep₁).tail hstep₂
      rcases res₂ with (e | msg) | _
      · -- The old mapping is put back, successfully or not.
        rcases hback : mapPageInner A p4 page old flags s₂ with ⟨res₃, s₃⟩
        have hstep₃ := (mapPageInner_space hstep₂.inv hU hold hback).1
        simp only [hback]
        rcases res₃ with (e' | msg) | _ <;> exact hsteps.tail hstep₃
      · exact hsteps
      · exact hsteps

/-- Steps for one address space keep all of them, and the leaves of the others. -/
theorem SpacesInv.steps (h : SpacesInv A U K P s) (hp4 : p4 ∈ P)
    (hsteps : ReflTransGen (SpaceStep A U p4) s s') :
    SpacesInv A U K P s' ∧ ∀ p4' ∈ P, p4' ≠ p4 → ∀ q j,
      leafOf s'.tables p4' q j = leafOf s.tables p4' q j := by
  induction hsteps with
  | refl => exact ⟨h, fun _ _ _ _ _ => rfl⟩
  | tail _ hs ih =>
    refine ⟨ih.1.step hp4 hs, fun p4' hp4' hne q j => ?_⟩
    rw [ih.1.same_leaves hp4 hs hp4' hne, ih.2 p4' hp4' hne]

theorem SpacesRun.spacesInv (h₀ : ∀ p4 ∈ P, EmptyP4 A p4 s₀)
    (hrun : SpacesRun A P SpaceCall.WellFormed s₀ s) : SpacesInv A (fun _ => true) ∅ P s := by
  induction hrun with
  | start => exact .start h₀
  | call _ hp4 hc hcall ih =>
    exact (ih.steps hp4 (performSpaceCall_steps (ih.each _ hp4) rfl hc.2.2 hcall)).1

/-- Whatever pages are mapped, unmapped and migrated in the other address spaces, in any order, an
address space translates as before. -/
theorem SpacesRun.isolated (h₀ : ∀ p4 ∈ P, EmptyP4 A p4 s₀)
    (hrun : SpacesRun A P SpaceCall.WellFormed s₀ s) (hp4 : p4 ∈ P)
    (hothers : SpacesRun A (P \ {p4}) SpaceCall.WellFormed s s') (v : VirtAddr) :
    OffsetMapper.translate s'.tables p4 v = OffsetMapper.translate s.tables p4 v := by
  have hinv := hrun.spacesInv h₀
  suffices h : SpacesInv A (fun _ => true) ∅ P s' ∧
      ∀ q j, leafOf s'.tables p4 q j = leafOf s.tables p4 q j from translate_congr h.2 v
  induction hothers with
  | start => exact ⟨hinv, fun _ _ => rfl⟩
  | call _ hother hc hcall ih =>
    obtain ⟨hnext, hsame⟩ := ih.1.steps hother.1
      (performSpaceCall_steps (ih.1.each _ hother.1) rfl hc.2.2 hcall)
    exact ⟨hnext, fun q j => (hsame p4 hp4 (Ne.symm hother.2) q j).trans (ih.2 q j)⟩

end Isolation

/-- The state after some calls from the start of the bump allocator. -/
def bumpCalls (calls : List SpaceCall) : MmState BumpState :=
  calls.foldl (fun s c => (performSpaceCall bumpAllocator (.ofPfn 1) c s).2) bumpStart

theorem bumpCalls_run {ok : SpaceCall → Prop} (calls : List SpaceCall) {c : SpaceCall}
    {r : Except MapError (Option PhysAddr)}
    (hrun : SpacesRun bumpAllocator {.ofPfn 1} ok bumpStart (bumpCalls calls)) (hc : ok c)
    (hres : (performSpaceCall bumpAllocator (.ofPfn 1) c (bumpCalls calls)).1 = r.mapError .err) :
    SpacesRun bumpAllocator {.ofPfn 1} ok bumpStart (bumpCalls (calls ++ [c])) := by
  have hstate : bumpCalls (calls ++ [c]) =
      (performSpaceCall bumpAllocator (.ofPfn 1) c (bumpCalls calls)).2 := by
    rw [bumpCalls, foldl_append]
    rfl
  rw [hstate]
  exact .call hrun rfl hc (Prod.ext hres rfl)

/-- A user page at `0x400000`. -/
def mapUser (frame : PhysAddr) : SpaceCall :=
  .map ⟨0x400000⟩ frame (.WRITABLE ||| .USER_ACCESSIBLE)

/-- A page is mapped and moved to another frame. -/
theorem rmapAgrees_mapMigrate :
    SpacesRun bumpAllocator {.ofPfn 1} SpaceCall.WellFormed bumpStart
      (bumpCalls [mapUser ⟨0x100000⟩,
        .migrate ⟨0x400000⟩ ⟨0x101000⟩ (.WRITABLE ||| .USER_ACCESSIBLE)]) ∧
    RmapAgrees {.ofPfn 1} (bumpCalls [mapUser ⟨0x100000⟩,
      .migrate ⟨0x400000⟩ ⟨0x101000⟩ (.WRITABLE ||| .USER_ACCESSIBLE)]) := by
  have hwf : ∀ frame : PhysAddr, frame.asU64.toNat % 4096 = 0 → frame.asU64.toNat < 2 ^ 52 →
      (mapUser frame).WellFormed ∧
        (SpaceCall.migrate ⟨0x400000⟩ frame (.WRITABLE ||| .USER_ACCESSIBLE)).WellFormed := by
    intro frame halign hlt
    have hpage : (VirtAddr.mk 0x400000).Canonical := by decide
    have hmod : (VirtAddr.mk 0x400000).asU64.toNat % 4096 = 0 := by decide
    constructor <;>
      exact ⟨⟨hmod, by rintro _ ⟨⟩; exact halign⟩, hpage, by rintro _ ⟨⟩; exact hlt⟩
  have hrun : SpacesRun bumpAllocator {.ofPfn 1} SpaceCall.WellFormed bumpStart
      (bumpCalls [mapUser ⟨0x100000⟩,
        .migrate ⟨0x400000⟩ ⟨0x101000⟩ (.WRITABLE ||| .USER_ACCESSIBLE)]) :=
    bumpCalls_run [mapUser ⟨0x100000⟩] (r := .ok (some ⟨0x100000⟩))
      (bumpCalls_run [] (r := .ok none) .start
        (hwf ⟨0x100000⟩ (by decide) (by decide)).1 (by decide +kernel))
      (hwf ⟨0x101000⟩ (by decide) (by decide)).2 (by decide +kernel)
  refine ⟨hrun, SpacesRun.rmapAgrees ?_ rfl hrun⟩
  rintro p4 rfl
  exact bumpStart_emptyP4

/-- A frame address beyond `2^52` is recorded as it is, but the leaf does not hold it. -/
theorem rmap_beyond_52_bits :
    SpacesRun bumpAllocator {.ofPfn 1} SpaceCall.PageAligned bumpStart
      (bumpCalls [mapUser ⟨0x10000000100000⟩]) ∧
    ¬ RmapAgrees {.ofPfn 1} (bumpCalls [mapUser ⟨0x10000000100000⟩]) := by
  constructor
  · have hc : (mapUser ⟨0x10000000100000⟩).PageAligned :=
      ⟨by decide, by rintro _ ⟨⟩; decide⟩
    exact bumpCalls_run [] (r := .ok none) .start hc (by decide +kernel)
  · intro h
    have hrmap : (bumpCalls [mapUser ⟨0x10000000100000⟩]).rmap =
        rmapAdd ∅ ⟨0x10000000100000⟩ (.ofPfn 1) ⟨0x400000⟩ (.WRITABLE ||| .USER_ACCESSIBLE) := rfl
    have hentry : ∃ r ∈ rmapLookup (bumpCalls [mapUser ⟨0x10000000100000⟩]).rmap
        ⟨0x10000000100000⟩, r.key = (.ofPfn 1, ⟨0x400000⟩) := by
      rw [hrmap, rmapLookup_rmapAdd, if_pos rfl]
      exact ⟨_, mem_append_right _ (mem_singleton.mpr rfl), rfl⟩
    have hpage : (VirtAddr.mk 0x400000).IsPage := ⟨by decide, by decide⟩
    obtain ⟨e, -, -, haddr⟩ := (h.leaf_iff _ rfl _ hpage _).mp hentry
    have hframe := e.addr_frame.2
    rw [haddr] at hframe
    exact absurd hframe (by decide)

/-- Two empty address spaces. -/
def twoSpaces : MmState BumpState :=
  { bumpStart with alloc := ⟨3, [.ofPfn 1, .ofPfn 2], by decide⟩ }

/-- A page is mapped in the second address space. -/
theorem isolated_twoSpaces :
    let s := (performSpaceCall bumpAllocator (.ofPfn 2) (mapUser ⟨0x100000⟩) twoSpaces).2
    SpacesRun bumpAllocator ({.ofPfn 1, .ofPfn 2} \ {.ofPfn 1}) SpaceCall.WellFormed twoSpaces s ∧
      ∀ v, OffsetMapper.translate s.tables (.ofPfn 1) v =
        OffsetMapper.translate twoSpaces.tables (.ofPfn 1) v := by
  have hwf : (mapUser ⟨0x100000⟩).WellFormed :=
    ⟨⟨by decide, by rintro _ ⟨⟩; decide⟩, by decide, by rintro _ ⟨⟩; decide⟩
  have hempty : ∀ p4 ∈ ({.ofPfn 1, .ofPfn 2} : Set PhysAddr), EmptyP4 bumpAllocator p4 twoSpaces := by
    rintro p4 (rfl | rfl) <;>
      exact ⟨by decide, by decide, by simp [bumpAllocator, twoSpaces], rfl, rfl, by
        rintro c ⟨⟩
        exact ⟨rfl, rfl, fun _ _ _ => rfl⟩⟩
  have hrun := SpacesRun.call (r := .ok none)
    (.start : SpacesRun bumpAllocator ({.ofPfn 1, .ofPfn 2} \ {.ofPfn 1}) _ twoSpaces twoSpaces)
    ⟨.inr rfl, by decide⟩ hwf (Prod.ext (by decide +kernel) rfl)
  exact ⟨hrun, SpacesRun.isolated hempty .start (.inl rfl) hrun⟩

end BoruixKernel
