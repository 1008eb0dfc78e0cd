import BoruixKernel.Mm.Lifecycle
import BoruixKernel.Mm.RmapAgreement

/-!
# Forking an address space

`fork` gives the child the areas of the parent and a frame of its own for every page of
them, with the bytes the parent has there.  `ForkOf` says what the two should then have
to do with each other: the same areas, the same contents, no frame in common, and no
write in one that a read in the other could see.

The loop over the pages keeps `Forking`: what was in use before the fork is as it was,
and the child's leaves are those of the pages copied so far, each on a frame that was
not in use before.  The kernel half is shared by all address spaces, so this is about
areas in the user half.
-/

namespace BoruixKernel

open PointerTrie Function List PageTableEntry MemorySet

/-! ## The areas of the child -/

section Areas

variable {t : VmaTree} {a : MemoryArea}

theorem VmaTree.Good.insertArea_last (h : t.Good) (hne : a.start.asU64 < a.end.asU64)
    (hlast : ∀ b ∈ areas t.root, b.end.asU64 ≤ a.start.asU64 ∧ ¬ Joinable b a) :
    ∃ t', t.insertArea a = (.ok (), t') ∧ areas t'.root = areas t.root ++ [a] := by
  have hbefore : ∀ b ∈ areas t.root, b.start.asU64 < a.start.asU64 := fun b hb =>
    (h.apart.nonempty b hb).trans_le (hlast b hb).1
  have hnone : (areas t.root).filter (a.start.asU64 ≤ ·.start.asU64) = [] := by
    rw [filter_eq_nil_iff]
    intro b hb
    simpa using hbefore b hb
  have hall : (areas t.root).filter (·.start.asU64 < a.start.asU64) = areas t.root := by
    rw [filter_eq_self]
    intro b hb
    simpa using hbefore b hb
  have hprev : absorbPrev t.root a = some (t.root, a, false) := by
    unfold absorbPrev
    rw [findPrev_eq h.shaped h.apart.sorted]
    split
    · rfl
    next prev hprev =>
      obtain ⟨hend, hjoin⟩ := hlast prev (mem_filter.mp (mem_of_getLast? hprev)).1
      rw [if_neg (not_lt.mpr hend)]
      exact if_neg hjoin
  have hnext : absorbNext t.root a = some (t.root, a, false) := by
    unfold absorbNext
    rw [findNext_eq h.shaped h.apart.sorted, hnone]
    rfl
  refine ⟨⟨insertNode t.root (.new a)⟩, ?_, ?_⟩
  · unfold VmaTree.insertArea
    rw [if_neg (not_le.mpr hne), insertLoop, hprev]
    simp [hnext]
  · rw [areas_insertNode h.shaped h.apart.sorted, hall, hnone]

/-- Areas that are apart are recorded as they are. -/
theorem MemorySet.pushLazyAll_areas {as : List MemoryArea} (ms : MemorySet)
    (h : AreasApart (areas ms.vma.root ++ as)) :
    ∃ ms', ms.pushLazyAll as = .ok ms' ∧ ms'.p4Phys = ms.p4Phys ∧
      areas ms'.vma.root = areas ms.vma.root ++ as := by
  induction as generalizing ms with
  | nil => exact ⟨ms, rfl, rfl, (append_nil _).symm⟩
  | cons a as ih =>
    have hpair := pairwise_append.mp h.apart
    obtain ⟨t', hinsert, hareas⟩ := ms.vma_good.insertArea_last (h.nonempty a (by simp))
      fun b hb => hpair.2.2 b hb a (by simp)
    have hset : ms.insertArea a = (.ok (), { ms with
        vma := t', vma_good := by have := ms.vma_good.insertArea a; rwa [hinsert] at this }) := by
      simp [MemorySet.insertArea, hinsert]
    rw [← singleton_append, ← append_assoc, ← hareas] at h
    obtain ⟨ms', hpush, hp4, hareas'⟩ := ih { ms with
      vma := t', vma_good := by have := ms.vma_good.insertArea a; rwa [hinsert] at this } h
    refine ⟨ms', ?_, hp4, ?_⟩
    · rw [MemorySet.pushLazyAll, hset]
      exact hpush
    · rw [hareas', hareas, append_assoc, singleton_append]

end Areas

/-! ## Reads and writes -/

/-- The frame an address is in. -/
def PhysAddr.frameBase (p : PhysAddr) : PhysAddr := ⟨p.asU64 / 4096 * 4096⟩

section Bytes

variable {σ : Type} {s s' : MmState σ} {v : VirtAddr}

/-- The byte at an address, if it is mapped. -/
def MemorySet.readByte (ms : MemorySet) (s : MmState σ) (v : VirtAddr) : Option UInt8 :=
  (ms.translate s v).map fun p => (s.tables p.frameBase).byte (p.asU64.toNat % 4096)

/-- Store a byte at an address.  Without a mapping nothing is stored. -/
def MemorySet.writeByte (ms : MemorySet) (s : MmState σ) (w : VirtAddr × UInt8) : MmState σ :=
  match ms.translate s w.1 with
  | none => s
  | some p => s.storeBytes p.frameBase (p.asU64.toNat % 4096) [w.2]

theorem MemorySet.translate_eq_mapper {ms : MemorySet} (h : s.physOffset.isSome) :
    ms.translate s v = OffsetMapper.translate s.tables ms.p4Phys v := by
  obtain ⟨off, hoff⟩ := Option.isSome_iff_exists.mp h
  simp only [MemorySet.translate, hoff]
  rfl

/-- A translation depends on the rows of the tables. -/
theorem MemorySet.translate_of_rows {ms : MemorySet} (hoff : s'.physOffset = s.physOffset)
    (hrow : ∀ q t, tableOf s.tables ms.p4Phys q = some t → s'.tables t = s.tables t) :
    ms.translate s' v = ms.translate s v := by
  cases h : s.physOffset with
  | none => simp [MemorySet.translate, hoff, h]
  | some off =>
    rw [translate_eq_mapper (by rw [hoff, h]; rfl),
      translate_eq_mapper (by rw [h]; rfl)]
    exact translate_congr (leafAt_same tableFormat hrow) v

/-- The writes of one address space cannot be seen in another one, if its frames are no
tables and none of the other one's frames. -/
theorem MemorySet.writes_hidden {a b : MemorySet} {user : VirtAddr → Prop}
    (h : ∀ v, user v → ∀ p, a.translate s v = some p →
      (∀ q, tableOf s.tables a.p4Phys q ≠ some p.frameBase) ∧
      (∀ q, tableOf s.tables b.p4Phys q ≠ some p.frameBase) ∧
      ∀ v', user v' → ∀ p', b.translate s v' = some p' → p'.frameBase ≠ p.frameBase)
    {ws : List (VirtAddr × UInt8)} (hws : ∀ w ∈ ws, user w.1) (hv : user v) :
    b.readByte (ws.foldl a.writeByte s) v = b.readByte s v := by
  induction ws generalizing s with
  | nil => rfl
  | cons w ws ih =>
    rw [foldl_cons]
    have hws' : ∀ w ∈ ws, user w.1 := fun w hw => hws w (mem_cons_of_mem _ hw)
    cases hw : a.translate s w.1 with
    | none =>
      rw [show a.writeByte s w = s by rw [MemorySet.writeByte, hw]]
      exact ih h hws'
    | some p =>
      have hstore : a.writeByte s w = s.storeBytes p.frameBase (p.asU64.toNat % 4096) [w.2] := by
        rw [MemorySet.writeByte, hw]
      obtain ⟨hna, hnb, hother⟩ := h w.1 (hws w mem_cons_self) p hw
      have hrow : ∀ f ≠ p.frameBase, (a.writeByte s w).tables f = s.tables f := by
        intro f hf
        rw [hstore]
        exact update_of_ne hf _ _
      have hoff : (a.writeByte s w).physOffset = s.physOffset := by
        rw [hstore]
        rfl
      -- The tables of both are as they were, and so are the translations.
      have hrows : ∀ ms : MemorySet, (∀ q, tableOf s.tables ms.p4Phys q ≠ some p.frameBase) →
          ∀ q t, tableOf s.tables ms.p4Phys q = some t → (a.writeByte s w).tables t = s.tables t :=
        fun ms hno q t ht => hrow t fun heq => hno q (heq ▸ ht)
      have hta : ∀ v, a.translate (a.writeByte s w) v = a.translate s v := fun v =>
        translate_of_rows hoff (hrows a hna)
      have htb : ∀ v, b.translate (a.writeByte s w) v = b.translate s v := fun v =>
        translate_of_rows hoff (hrows b hnb)
      rw [ih ?_ hws']
      · rw [MemorySet.readByte, MemorySet.readByte, htb]
        cases hp' : b.translate s v with
        | none => rfl
        | some p' => rw [Option.map_some, Option.map_some, hrow _ (hother v hv p' hp')]
      · simp only [hta, htb, tableOf, tableAt_same tableFormat (hrows a hna),
          tableAt_same tableFormat (hrows b hnb)]
        exact h

end Bytes

/-! ## The new P4 -/

/-- The entries of a P4 for user addresses. -/
def userHalf (i : Fin 512) : Bool := i.val < 256

theorem userHalf_of_lt {v : VirtAddr} (h : v.asU64.toNat < UserEnd) :
    userHalf v.p4Index = true := by
  simpa [userHalf] using VirtAddr.p4Index_lt h

section NewBare

variable {A : FrameAllocator σ} {s s' : MmState σ}

/-- The private part of a P4 with a clear user half is empty. -/
theorem priv_eq_zero (h : ∀ i, userHalf i = true → s.tables c i = .new) :
    (s.priv userHalf c).tables c = PageTable.zero := by
  funext i
  cases hi : userHalf i with
  | true =>
    rw [shade_entry fun _ => hi, h i hi]
    rfl
  | false => exact shade_entry_of_not hi

theorem tableOf_priv_of_clear (h : ∀ i, userHalf i = true → s.tables c i = .new)
    {q : List (Fin 512)} {t : PhysAddr} (ht : tableOf (s.priv userHalf c).tables c q = some t) :
    t = c ∧ q = [] := by
  rw [tableOf_of_zero (priv_eq_zero h)] at ht
  split at ht
  · next hq => exact ⟨(Option.some.inj ht).symm, hq⟩
  · cases ht

theorem pageLeaf_of_clear (hinv : MapperInv A c (s.priv userHalf c))
    (h : ∀ i, userHalf i = true → s.tables c i = .new) {v : VirtAddr}
    (hU : userHalf v.p4Index = true) (l : PageLevel) : pageLeaf s.tables c l v = none := by
  rw [← pageLeaf_priv hinv hU, Option.eq_none_iff_forall_ne_some]
  intro e he
  obtain ⟨t, ht, rfl, hleaf⟩ := leafOf_eq_some.mp he
  obtain ⟨rfl, -⟩ := tableOf_priv_of_clear h ht
  rw [priv_eq_zero h, PageTable.zero, leaf_eq_false new_present] at hleaf
  cases hleaf

/-- A P4 with a clear user half and shared entries joins the address spaces. -/
theorem SpacesInv.join (h : SpacesInv A userHalf K P s) (hp4 : p4 ∈ P)
    (halloc : A.allocateFrame s.alloc = (some c, a)) (huser : ∀ i, userHalf i = true → row i = .new)
    (hshared : ∀ i, userHalf i = false → ∀ t, tableFormat.child 0 (row i) = some t → t ∈ K)
    (halloc' : s'.alloc = a) (htables : s'.tables = update s.tables c row)
    (hcounts : s'.counts = s.counts) : SpacesInv A userHalf K (insert c P) s' := by
  obtain ⟨hframe, -, hfresh, hheld⟩ := A.allocate_some halloc
  have hrow : ∀ t, TableFrame userHalf K P s t → s'.tables t = s.tables t := by
    intro t ht
    rw [htables]
    refine update_of_ne ?_ _ _
    rintro rfl
    exact hfresh (h.tableFrame_held ht)
  have hmore : A.held s.alloc ⊆ A.held s'.alloc := by
    rw [halloc', hheld]
    exact Set.subset_insert _ _
  have hold : SpacesInv A userHalf K P s' := h.fill hrow hmore hcounts
  have hclear : ∀ i, userHalf i = true → s'.tables c i = .new := by
    intro i hi
    rw [htables, update_self, huser i hi]
  have hnew : ∀ q t, tableOf (s'.priv userHalf c).tables c q = some t → t = c ∧ q = [] :=
    fun _ _ => tableOf_priv_of_clear hclear
  have hin : c ∈ A.held s'.alloc := by
    rw [halloc', hheld]
    exact Set.mem_insert _ _
  have hinv : MapperInv A c (s'.priv userHalf c) := by
    refine ⟨hframe, fun q q' t ht ht' => ?_, fun q t ht => ?_, fun k hk => ?_⟩
    · rw [(hnew q t ht).2, (hnew q' t ht').2]
    · rw [(hnew q t ht).1]
      exact hin
    · have hok := (hold.each p4 hp4).counts k hk
      have hok0 := (h.each p4 hp4).counts k (hcounts.symm.trans hk)
      refine ⟨hok.len, fun q t hne ht => absurd (hnew q t ht).2 hne, ?_, hok.free⟩
      exact hok0.free c hframe hfresh
  have hout : ∀ p ∈ P, ∀ q t, tableOf (s'.priv userHalf p).tables p q = some t → t ≠ c := by
    rintro p hp q t ht rfl
    exact hfresh ((h.each p hp).held q t ((fill_tables hrow hp q).symm.trans ht))
  constructor
  · rintro p (rfl | hp)
    · exact hinv
    · exact hold.each p hp
  · rintro p (rfl | hp) p' (rfl | hp') hne q q' t ht ht'
    · exact hne rfl
    · exact hout p' hp' q' t ht' (hnew q t ht).1
    · exact hout p hp q t ht (hnew q' t ht').1
    · exact hold.apart p hp p' hp' hne q q' t ht ht'
  · rintro p (rfl | hp) i hi t ht
    · rw [htables, update_self] at ht
      exact hshared i hi t ht
    · exact hold.common p hp i hi t ht
  · exact hold.closed
  · exact hold.kept
  · rintro p (rfl | hp) q t ht hK
    · rw [(hnew q t ht).1] at hK
      exact hfresh (h.kept _ hK).2
    · exact hold.off p hp q t ht hK

/-- `new_bare` puts a new P4 on a fresh frame. -/
theorem newBare_spec (hkernel : kernelP4 ∈ A.held s.alloc)
    (hrun : MemorySet.newBare A kernelP4 s = (.ok ms, s')) :
    ∃ a, A.allocateFrame s.alloc = (some ms.p4Phys, a) ∧ s'.alloc = a ∧ ms.vma = .new ∧
      s'.tables = update s.tables ms.p4Phys
        (fun i => if userHalf i then .new else s.tables kernelP4 i) ∧
      s'.counts = s.counts ∧ s.physOffset.isSome ∧ s'.physOffset = s.physOffset := by
  unfold MemorySet.newBare at hrun
  rcases halloc : A.allocateFrame s.alloc with ⟨_ | phys, a⟩
  · rw [halloc] at hrun
    cases hrun
  rw [halloc] at hrun
  have hne : kernelP4 ≠ phys := by
    rintro rfl
    exact (A.allocate_some halloc).2.2.1 hkernel
  simp only at hrun
  split at hrun
  · cases hrun
  next off hoff =>
    split at hrun
    · cases hrun
    · cases hrun
      refine ⟨a, rfl, rfl, rfl, ?_, rfl, by rw [hoff]; rfl, rfl⟩
      simp only [MmState.zeroFrame, update_idem, update_self,
        update_of_ne hne]
      congr 1
      funext i
      by_cases hi : 256 ≤ i.val
      · simp [hi, userHalf, Nat.not_lt.mpr hi]
      · simp [hi, userHalf, Nat.lt_of_not_le hi, PageTable.zero]

end NewBare

/-! ## Filling a page -/

section Fill

variable {σ : Type} {A : FrameAllocator σ} {K P : Set PhysAddr} {p4 phys : PhysAddr}
  {s s' s₂ : MmState σ} {page : VirtAddr} {flags : PageTableFlags} {row : PageTable}

/-- A fresh frame is mapped at a page of the user half and filled.  Frames in use that are
not tables of the address space are left alone. -/
structure PageFilled (A : FrameAllocator σ) (K P : Set PhysAddr) (p4 : PhysAddr) (page : VirtAddr)
    (flags : PageTableFlags) (phys : PhysAddr) (row : PageTable) (s s' : MmState σ) : Prop where
  spaces : SpacesInv A userHalf K P s'
  offset : s'.physOffset = s.physOffset
  fresh : phys ∉ A.held s.alloc
  outside : Outside A p4 (s'.priv userHalf p4) phys
  noTable : ¬ TableFrame userHalf K P s' phys
  row : s'.tables phys = row
  vacant : pageLeaf s.tables p4 .small page = none
  leaves : ∀ v : VirtAddr, v.Canonical → ∀ l, pageLeaf s'.tables p4 l v =
    if l = .small ∧ v.asU64.toNat / 4096 = page.asU64.toNat / 4096 then
      some (.pack phys (flags ||| .PRESENT))
    else pageLeaf s.tables p4 l v
  rest : ∀ f, Outside A p4 (s.priv userHalf p4) f →
    s'.tables f = s.tables f ∧ Outside A p4 (s'.priv userHalf p4) f
  tables : ∀ q t, tableOf (s'.priv userHalf p4).tables p4 q = some t →
    (∃ q', tableOf (s.priv userHalf p4).tables p4 q' = some t) ∨ t ∉ A.held s.alloc
  other : ∀ p4' ∈ P, p4' ≠ p4 → ∀ q,
    tableOf (s'.priv userHalf p4').tables p4' q = tableOf (s.priv userHalf p4').tables p4' q

theorem SpacesInv.pageFilled (h : SpacesInv A userHalf K P s) (hp4 : p4 ∈ P)
    (halloc : A.allocateFrame s.alloc = (some phys, a)) (hpage : page.IsPage)
    (hU : userHalf page.p4Index = true) (hhuge : flags.contains .HUGE_PAGE = false)
    (hmap : mapPageInner A p4 page phys flags { s with alloc := a } = (.ok (), s₂))
    (row : PageTable) : PageFilled A K P p4 page flags phys row s
      { s₂ with tables := update s₂.tables phys row } := by
  obtain ⟨hframe, -, hnew, hheld⟩ := A.allocate_some halloc
  let s1 : MmState σ := { s with alloc := a }
  have hmore1 : A.held s.alloc ⊆ A.held s1.alloc := by
    rw [show A.held s1.alloc = _ from hheld]
    exact Set.subset_insert _ _
  have hsame1 : ∀ t, TableFrame userHalf K P s t → s1.tables t = s.tables t := fun _ _ => rfl
  have hsp1 : SpacesInv A userHalf K P s1 := h.fill hsame1 hmore1 rfl
  obtain ⟨hs, hcases⟩ := mapPageInner_space (hsp1.each p4 hp4) hU hframe.2 hmap
  have hl : selectLevel page phys flags = .small := selectLevel_small hhuge
  rw [hl] at hcases
  rcases hcases with ⟨-, -, hadd, -⟩ | ⟨⟨_, hno⟩, -⟩
  rotate_left
  · cases hno
  have hsp2 := hsp1.step hp4 hs
  -- The frame is not used as a table.
  have hphys : Outside A p4 (s1.priv userHalf p4) phys :=
    ⟨hframe, hheld ▸ Set.mem_insert _ _, fun q hq => hnew ((h.each p4 hp4).held q phys hq)⟩
  have hphys2 := hs.toLocalStep.still hphys
  have hnotable : ¬ TableFrame userHalf K P s₂ phys := by
    rintro (hK | ⟨p4', hp4', q, hq⟩)
    · exact hnew (h.kept _ hK).2
    · by_cases heq : p4' = p4
      · subst heq
        exact hphys2.2.2 q hq
      · rw [hsp1.same_tables hp4 hs hp4' heq] at hq
        exact hnew ((h.each p4' hp4').held q phys hq)
  let s' : MmState σ := { s₂ with tables := update s₂.tables phys row }
  have hother : ∀ f ≠ phys, s'.tables f = s₂.tables f := fun f hf => update_of_ne hf _ _
  have hrow : ∀ t, TableFrame userHalf K P s₂ t → s'.tables t = s₂.tables t := by
    intro t ht
    refine hother t ?_
    rintro rfl
    exact hnotable ht
  have houtside : ∀ f, Outside A p4 (s₂.priv userHalf p4) f → Outside A p4 (s'.priv userHalf p4) f :=
    fun f hf => ⟨hf.1, hf.2.1, fun q hq => hf.2.2 q ((fill_tables hrow hp4 q).symm.trans hq)⟩
  constructor
  · exact hsp2.fill hrow (Set.Subset.refl _) rfl
  · exact hadd.offset
  · exact hnew
  · exact houtside _ hphys2
  · rintro (hK | ⟨p4', hp4', q, hq⟩)
    · exact hnotable (.inl hK)
    · exact hnotable (.inr ⟨p4', hp4', q, (fill_tables hrow hp4' q).symm.trans hq⟩)
  · exact update_self _ _ _
  · exact (pageLeaf_priv (hsp1.each p4 hp4) hU .small).symm.trans hadd.vacant
  · intro v hv l
    have hleaf : pageLeaf s'.tables p4 l v = pageLeaf s₂.tables p4 l v :=
      hsp2.fill_leaves hrow hp4 _ _
    refine hleaf.trans ?_
    rw [hsp1.pageLeaf_step hp4 hs hpage.1 hU hadd.leaves hp4 hv]
    simp only [true_and]
    rfl
  · intro f hf
    have hf1 : Outside A p4 (s1.priv userHalf p4) f := ⟨hf.1, hmore1 hf.2.1, hf.2.2⟩
    have hne : f ≠ phys := by
      rintro rfl
      exact hnew hf.2.1
    exact ⟨(hother f hne).trans (hs.rest hf1).1, houtside f (hs.toLocalStep.still hf1)⟩
  · intro q t ht
    rcases hs.fresh q t ((fill_tables hrow hp4 q).symm.trans ht) with hold | hnot
    · exact .inl hold
    · exact .inr fun ht0 => hnot (hmore1 ht0)
  · intro p4' hp4' hne q
    exact (fill_tables hrow hp4' q).trans (hsp1.same_tables hp4 hs hp4' hne q)

end Fill

/-! ## Copying the pages -/

variable {done : List Copied}

section Copy

variable {σ : Type} {A : FrameAllocator σ} {K P : Set PhysAddr} {c kernelP4 : PhysAddr}
  {parent : MemorySet} {s₀ s s' : MmState σ} {page : VirtAddr} {flags : PageTableFlags}

/-- What the child should find in a page. -/
def MemorySet.contentsAt (parent : MemorySet) (s₀ : MmState σ) (page : VirtAddr) : PageTable :=
  match parent.translate s₀ page with
  | some src => s₀.tables src
  | none => .zero

/-- A page with its flags and the frame it was copied to. -/
structure Copied where
  page : VirtAddr
  flags : PageTableFlags
  frame : PhysAddr

/-- A page that was copied, in a later state. -/
structure CopyOk (A : FrameAllocator σ) (c : PhysAddr) (parent : MemorySet) (s₀ s : MmState σ)
    (d : Copied) : Prop where
  isPage : d.page.IsPage
  fresh : d.frame ∉ A.held s₀.alloc
  outside : Outside A c (s.priv userHalf c) d.frame
  leaf : pageLeaf s.tables c .small d.page = some (.pack d.frame (d.flags ||| .PRESENT))
  contents : s.tables d.frame = parent.contentsAt s₀ d.page

/-- A fork on the way: `s₀` is the state before it, `c` the P4 of the child. -/
structure Forking (A : FrameAllocator σ) (K P : Set PhysAddr) (c : PhysAddr) (parent : MemorySet)
    (s₀ : MmState σ) (done : List Copied) (s : MmState σ) : Prop where
  spaces : SpacesInv A userHalf K (insert c P) s
  offset : s.physOffset = s₀.physOffset
  /-- Frames in use before are in use, and as they were. -/
  more : ∀ f : PhysAddr, f.Frame → f ∈ A.held s₀.alloc → f ∈ A.held s.alloc
  rows : ∀ f : PhysAddr, f.Frame → f ∈ A.held s₀.alloc → s.tables f = s₀.tables f
  /-- The tables of the child are new. -/
  tables : ∀ q t, tableOf (s.priv userHalf c).tables c q = some t → t ∉ A.held s₀.alloc
  copied : ∀ d ∈ done, CopyOk A c parent s₀ s d
  /-- The child has no other leaves. -/
  only : ∀ v : VirtAddr, v.Canonical → userHalf v.p4Index = true → ∀ l e,
    pageLeaf s.tables c l v = some e → l = .small ∧ ∃ d ∈ done, e.addr = d.frame

/-- What the fork may rely on: the kernel half of the kernel's P4 leads to shared tables,
and the frames of the parent's user pages are in use, and not as tables. -/
structure ForkReady (A : FrameAllocator σ) (K P : Set PhysAddr) (kernelP4 : PhysAddr)
    (parent : MemorySet) (s₀ : MmState σ) : Prop where
  spaces : SpacesInv A userHalf K P s₀
  kernel : kernelP4.Frame ∧ kernelP4 ∈ A.held s₀.alloc
  shared : ∀ i, userHalf i = false → ∀ t, tableFormat.child 0 (s₀.tables kernelP4 i) = some t →
    t ∈ K
  space : parent.p4Phys ∈ P
  frames : ∀ v : VirtAddr, v.asU64.toNat < UserEnd → ∀ p, parent.translate s₀ v = some p →
    p.frameBase.Frame ∧ p.frameBase ∈ A.held s₀.alloc ∧ ¬ TableFrame userHalf K P s₀ p.frameBase

/-- The parent translates as before. -/
theorem Forking.translate_parent (h : Forking A K P c parent s₀ done s)
    (hr : ForkReady A K P kernelP4 parent s₀) (v : VirtAddr) :
    parent.translate s v = parent.translate s₀ v := by
  refine translate_of_rows h.offset fun q t ht => h.rows t ?_ ?_
  · exact tableOf_frame (hr.spaces.each _ hr.space).root ht
  · exact hr.spaces.tableFrame_held (hr.spaces.tableFrame hr.space ht)

/-- One round of the loop: a frame is allocated, mapped and filled. -/
theorem Forking.step {done : List Copied} (h : Forking A K P c parent s₀ done s)
    {phys : PhysAddr} {a : σ} (halloc : A.allocateFrame s.alloc = (some phys, a))
    (hpage : page.IsPage) (hU : userHalf page.p4Index = true)
    (hhuge : flags.contains .HUGE_PAGE = false) {s₂ : MmState σ}
    (hmap : mapPageInner A c page phys flags { s with alloc := a } = (.ok (), s₂))
    (hs' : s' = { s₂ with tables := update s₂.tables phys (parent.contentsAt s₀ page) }) :
    Forking A K P c parent s₀ (done ++ [⟨page, flags, phys⟩]) s' := by
  have hfill : PageFilled A K (insert c P) c page flags phys (parent.contentsAt s₀ page) s s' := by
    rw [hs']
    exact h.spaces.pageFilled (Set.mem_insert _ _) halloc hpage hU hhuge hmap _
  have hframe := hfill.outside.1
  have hbefore : ∀ f : PhysAddr, f.Frame → f ∈ A.held s₀.alloc →
      Outside A c (s.priv userHalf c) f := fun f hf hf0 =>
    ⟨hf, h.more f hf hf0, fun q hq => h.tables q f hq hf0⟩
  constructor
  · exact hfill.spaces
  · exact hfill.offset.trans h.offset
  · exact fun f hf hf0 => (hfill.rest f (hbefore f hf hf0)).2.2.1
  · exact fun f hf hf0 => (hfill.rest f (hbefore f hf hf0)).1.trans (h.rows f hf hf0)
  · intro q t ht
    rcases hfill.tables q t ht with ⟨q', hq'⟩ | hnot
    · exact h.tables q' t hq'
    · exact fun ht0 => hnot (h.more t (tableOf_frame
        (hfill.spaces.each c (Set.mem_insert _ _)).root ht) ht0)
  · intro d hd
    rcases mem_append.mp hd with hd | hd
    · have hok := h.copied d hd
      obtain ⟨hrow, hout⟩ := hfill.rest _ hok.outside
      refine ⟨hok.isPage, hok.fresh, hout, ?_, hrow.trans hok.contents⟩
      rw [hfill.leaves d.page hok.isPage.1, if_neg, hok.leaf]
      rintro ⟨-, hsame⟩
      have hleaf := hok.leaf
      rw [eq_of_page hok.isPage hpage hsame, hfill.vacant] at hleaf
      cases hleaf
    · obtain rfl := mem_singleton.mp hd
      refine ⟨hpage, fun hmem => hfill.fresh (h.more phys hframe hmem), hfill.outside, ?_, hfill.row⟩
      rw [hfill.leaves page hpage.1, if_pos ⟨rfl, rfl⟩]
  · intro v hv hUv l e he
    rw [hfill.leaves v hv] at he
    split at he
    · next hc' =>
      cases he
      exact ⟨hc'.1, ⟨page, flags, phys⟩, mem_append_right _ (mem_singleton.mpr rfl),
        addr_pack hframe _⟩
    · obtain ⟨hl, d, hd, hde⟩ := h.only v hv hUv l e he
      exact ⟨hl, d, mem_append_left _ hd, hde⟩

variable {p p4 : PhysAddr}

/-- An address that translates has a leaf. -/
theorem exists_pageLeaf (h : OffsetMapper.translate T p4 v = some p) :
    ∃ l e, pageLeaf T p4 l v = some e ∧ p = l.apply v e := by
  by_contra hno
  have hnone : ∀ l, pageLeaf T p4 l v = none := by
    intro l
    cases hl : pageLeaf T p4 l v with
    | none => rfl
    | some e =>
      rw [translate_of_pageLeaf hl] at h
      exact absurd ⟨l, e, hl, (Option.some.inj h).symm⟩ hno
  rw [translate_eq_none hnone] at h
  cases h

theorem PageLevel.size_cases (l : PageLevel) : 4096 ∣ l.size ∧ l.size ≤ 2 ^ 30 := by
  cases l <;> decide

theorem toNat_apply (l : PageLevel) (v : VirtAddr) (e : PageTableEntry) :
    (l.apply v e).asU64.toNat = e.addr.asU64.toNat + v.asU64.toNat % l.size := by
  have hframe := e.addr_frame.2
  have hle := l.size_cases.2
  have hlt : v.asU64.toNat % l.size < l.size := Nat.mod_lt _ (Nat.two_pow_pos l.bits)
  rw [PageLevel.apply, UInt64.toNat_add, PageLevel.toNat_offset]
  omega

theorem toNat_frameBase (p : PhysAddr) : p.frameBase.asU64.toNat = p.asU64.toNat / 4096 * 4096 := by
  have hlt := p.asU64.toNat_lt
  rw [PhysAddr.frameBase, UInt64.toNat_mul, UInt64.toNat_div]
  simp only [UInt64.reduceToNat]
  omega

theorem frameBase_eq (hf : f.Frame) (h : p.asU64.toNat / 4096 = f.asU64.toNat / 4096) :
    p.frameBase = f := by
  ext1
  apply UInt64.toNat_inj.mp
  have := hf.1
  rw [toNat_frameBase]
  omega

/-- The frame of a page is where it translates to. -/
theorem frameBase_of_page (hpage : page.IsPage) (h : OffsetMapper.translate T p4 page = some p) :
    p.frameBase = p := by
  obtain ⟨l, e, -, rfl⟩ := exists_pageLeaf h
  have haddr := e.addr_frame.1
  obtain ⟨k, hk⟩ := l.size_cases.1
  have hmod : page.asU64.toNat % l.size % 4096 = 0 := by
    rw [hk, Nat.mod_mul_right_mod, hpage.2]
  ext1
  apply UInt64.toNat_inj.mp
  rw [toNat_frameBase, toNat_apply]
  omega

theorem Forking.pages (hr : ForkReady A K P kernelP4 parent s₀) (hoff : s₀.physOffset.isSome)
    {pages : List (VirtAddr × PageTableFlags)}
    (hpages : ∀ p ∈ pages, p.1.IsPage ∧ p.1.asU64.toNat < UserEnd ∧
      p.2.contains .HUGE_PAGE = false) (h : Forking A K P c parent s₀ done s)
    (hrun : forkPages A parent c pages s = (.ok (), s')) :
    ∃ more : List Copied, Forking A K P c parent s₀ (done ++ more) s' ∧
      more.map (fun d => (d.page, d.flags)) = pages := by
  induction pages generalizing done s with
  | nil =>
    cases hrun
    exact ⟨[], by rwa [append_nil], rfl⟩
  | cons p pages ih =>
    obtain ⟨page, flags⟩ := p
    obtain ⟨hpage, hlt, hhuge⟩ := hpages _ mem_cons_self
    have hU := userHalf_of_lt hlt
    rw [forkPages] at hrun
    rcases halloc : A.allocateFrame s.alloc with ⟨_ | phys, a⟩
    · rw [halloc] at hrun
      cases hrun
    rw [halloc] at hrun
    simp only at hrun
    rcases hmap : mapPageInner A c page phys flags { s with alloc := a } with ⟨_ | _, s₂⟩
    · rw [hmap] at hrun
      cases hrun
    rw [hmap] at hrun
    simp only at hrun
    have hnext := h.step halloc hpage hU hhuge hmap rfl
    have hrow : ∀ f : PhysAddr, f.Frame → f ∈ A.held s₀.alloc → s₂.tables f = s₀.tables f := by
      intro f hf hf0
      have hne : f ≠ phys := by
        rintro rfl
        exact (A.allocate_some halloc).2.2.1 (h.more f hf hf0)
      rw [← hnext.rows f hf hf0]
      exact (update_of_ne hne _ _).symm
    have htrans : parent.translate s₂ page = parent.translate s₀ page :=
      translate_of_rows hnext.offset fun q t ht =>
        hrow t (tableOf_frame (hr.spaces.each _ hr.space).root ht)
          (hr.spaces.tableFrame_held (hr.spaces.tableFrame hr.space ht))
    -- The frame is filled with what the parent has there.
    have hfill : forkPages A parent c pages
        { s₂ with tables := update s₂.tables phys (parent.contentsAt s₀ page) } =
          (.ok (), s') := by
      rw [← hrun, htrans, MemorySet.contentsAt]
      cases hsrc : parent.translate s₀ page with
      | none => rfl
      | some src =>
        have hbase : src.frameBase = src := frameBase_of_page hpage
          ((translate_eq_mapper hoff).symm.trans hsrc)
        obtain ⟨hf, hheld, -⟩ := hr.frames page hlt src hsrc
        rw [hbase] at hf hheld
        simp [MmState.copyFrame, hrow src hf hheld]
    obtain ⟨more, hdone, hmore⟩ := ih (fun p hp => hpages p (mem_cons_of_mem _ hp)) hnext hfill
    refine ⟨⟨page, flags, phys⟩ :: more, ?_, ?_⟩
    · rwa [append_assoc, singleton_append] at hdone
    · rw [map_cons, hmore]

/-- The fork starts with an empty P4. -/
theorem Forking.start (hr : ForkReady A K P kernelP4 parent s₀) {child : MemorySet}
    (hrun : MemorySet.newBare A kernelP4 s₀ = (.ok child, s)) :
    Forking A K P child.p4Phys parent s₀ [] s := by
  obtain ⟨a, halloc, halloc', -, htables, hcounts, -, hoff⟩ := newBare_spec hr.kernel.2 hrun
  obtain ⟨-, -, hfresh, hheld⟩ := A.allocate_some halloc
  have hclear : ∀ i, userHalf i = true → s.tables child.p4Phys i = .new := by
    intro i hi
    rw [htables, update_self, if_pos hi]
  have hspaces : SpacesInv A userHalf K (insert child.p4Phys P) s := by
    refine hr.spaces.join hr.space halloc (fun i hi => if_pos hi) (fun i hi t ht => ?_)
      halloc' htables hcounts
    rw [hi] at ht
    exact hr.shared i hi t ht
  constructor
  · exact hspaces
  · exact hoff
  · intro f _ hf
    rw [halloc', hheld]
    exact Set.mem_insert_of_mem _ hf
  · intro f _ hf
    rw [htables]
    refine update_of_ne ?_ _ _
    rintro rfl
    exact hfresh hf
  · intro q t ht
    rw [(tableOf_priv_of_clear hclear ht).1]
    exact hfresh
  · exact fun d hd => absurd hd not_mem_nil
  · intro v _ hU l e he
    rw [pageLeaf_of_clear (hspaces.each _ (Set.mem_insert _ _)) hclear hU] at he
    cases he

end Copy

/-! ## What a fork is for -/

section Fork

variable {σ : Type} {A : FrameAllocator σ} {K P : Set PhysAddr} {kernelP4 : PhysAddr}
  {parent child : MemorySet} {s s' : MmState σ}

/-- The addresses a process may use: those of the user half, and those of its areas. -/
def MemorySet.UserAddr (ms : MemorySet) (v : VirtAddr) : Prop :=
  v.Canonical ∧ (v.asU64.toNat < UserEnd ∨ ∃ a ∈ ms.vma.areasInOrder, a.contains v = true)

/-- The child is a copy of the parent and has nothing to do with it from then on. -/
structure ForkOf (s : MmState σ) (parent child : MemorySet) (s' : MmState σ) : Prop where
  areas : child.vma.areasInOrder = parent.vma.areasInOrder
  /-- Every page of the child has the flags of its area and the bytes of the parent, or
  zeros where the parent has no page. -/
  copied : ∀ a ∈ parent.vma.areasInOrder, ∀ page ∈ a.pages, ∃ frame : PhysAddr, frame.Frame ∧
    pageLeaf s'.tables child.p4Phys .small page = some (.pack frame (a.flags ||| .PRESENT)) ∧
    s'.tables frame = parent.contentsAt s page
  /-- No frame is mapped by both. -/
  apart : ∀ v v' p p', parent.UserAddr v → parent.UserAddr v' → child.translate s' v = some p →
    parent.translate s' v' = some p' → p.frameBase ≠ p'.frameBase
  mappings : ∀ v, parent.translate s' v = parent.translate s v
  contents : ∀ v, parent.UserAddr v → parent.readByte s' v = parent.readByte s v
  /-- Writes of one cannot be read in the other. -/
  hidden : ∀ ws : List (VirtAddr × UInt8), (∀ w ∈ ws, parent.UserAddr w.1) →
    ∀ v, parent.UserAddr v →
      child.readByte (ws.foldl parent.writeByte s') v = child.readByte s' v ∧
      parent.readByte (ws.foldl child.writeByte s') v = parent.readByte s' v

theorem MemoryArea.UserHalf.isPage {a : MemoryArea} (ha : a.UserHalf)
    (h : page ∈ a.pages) : page.IsPage ∧ page.asU64.toNat < UserEnd := by
  obtain ⟨k, hk, hlt⟩ := mem_pagesBetween_iff.mp h
  have hend := hlt.trans_le (VirtAddr.alignUp_le_userEnd ha)
  rw [VirtAddr.toNat_alignDown_page] at hk
  refine ⟨⟨.inl hend, ?_⟩, hend⟩
  omega

theorem MemorySet.UserAddr.lt {v : VirtAddr} (h : parent.UserAddr v)
    (hareas : ∀ a ∈ parent.vma.areasInOrder, a.UserHalf) : v.asU64.toNat < UserEnd := by
  rcases h.2 with hlt | ⟨a, ha, hin⟩
  · exact hlt
  · simp only [MemoryArea.contains, Bool.and_eq_true, decide_eq_true_eq] at hin
    exact (UInt64.lt_iff_toNat_lt.mp hin.2).trans_le (hareas a ha)

/-- The frames of the child are those of the copied pages. -/
theorem Forking.translate_child (h : Forking A K P child.p4Phys parent s done s')
    (hoff : s'.physOffset.isSome) {v : VirtAddr} (hv : v.Canonical) (hlt : v.asU64.toNat < UserEnd)
    {p : PhysAddr} (hp : child.translate s' v = some p) : ∃ d ∈ done, p.frameBase = d.frame := by
  rw [translate_eq_mapper hoff] at hp
  obtain ⟨l, e, he, rfl⟩ := exists_pageLeaf hp
  have hU := userHalf_of_lt hlt
  obtain ⟨rfl, d, hd, haddr⟩ := h.only v hv hU l e he
  refine ⟨d, hd, ?_⟩
  rw [← haddr]
  refine frameBase_eq e.addr_frame ?_
  have hmod := e.addr_frame.1
  rw [toNat_apply]
  simp only [PageLevel.size, PageLevel.bits]
  omega

/-- When all pages are copied, the child is a fork of the parent. -/
theorem Forking.forkOf (h : Forking A K P child.p4Phys parent s done s')
    (hr : ForkReady A K P kernelP4 parent s) (hoff : s.physOffset.isSome)
    (hareas : child.vma.areasInOrder = parent.vma.areasInOrder)
    (huser : ∀ a ∈ parent.vma.areasInOrder, a.UserHalf)
    (hdone : ∀ a ∈ parent.vma.areasInOrder, ∀ page ∈ a.pages,
      ∃ d ∈ done, d.page = page ∧ d.flags = a.flags) : ForkOf s parent child s' := by
  have hoff' : s'.physOffset.isSome := by rwa [h.offset]
  have hc : child.p4Phys ∈ insert child.p4Phys P := Set.mem_insert _ _
  have hparent : ∀ v, parent.UserAddr v → ∀ p, parent.translate s' v = some p →
      p.frameBase.Frame ∧ p.frameBase ∈ A.held s.alloc ∧
        ¬ TableFrame userHalf K P s p.frameBase := by
    intro v hv p hp
    rw [h.translate_parent hr] at hp
    exact hr.frames v (hv.lt huser) p hp
  have hchild : ∀ v, parent.UserAddr v → ∀ p, child.translate s' v = some p →
      ∃ d ∈ done, p.frameBase = d.frame := fun v hv p hp =>
    h.translate_child hoff' hv.1 (hv.lt huser) hp
  have hapart : ∀ v v' p p', parent.UserAddr v → parent.UserAddr v' →
      child.translate s' v = some p → parent.translate s' v' = some p' →
      p.frameBase ≠ p'.frameBase := by
    intro v v' p p' hv hv' hp hp' heq
    obtain ⟨d, hd, hbase⟩ := hchild v hv p hp
    have hfresh := (h.copied d hd).fresh
    rw [← hbase, heq] at hfresh
    exact hfresh (hparent v' hv' p' hp').2.1
  -- The tables of the parent are those it had.
  have htables : ∀ q t, tableOf s'.tables parent.p4Phys q = some t → TableFrame userHalf K P s t := by
    intro q t ht
    refine hr.spaces.tableFrame hr.space (q := q) ?_
    rw [← ht]
    refine (tableAt_same tableFormat (fun q t ht => h.rows t ?_ ?_) q).symm
    · exact tableOf_frame (hr.spaces.each _ hr.space).root ht
    · exact hr.spaces.tableFrame_held (hr.spaces.tableFrame hr.space ht)
  constructor
  · exact hareas
  · intro a ha page hpage
    obtain ⟨d, hd, rfl, hflags⟩ := hdone a ha page hpage
    have hok := h.copied d hd
    exact ⟨d.frame, hok.outside.1, hflags ▸ hok.leaf, hok.contents⟩
  · exact hapart
  · exact h.translate_parent hr
  · intro v hv
    rw [MemorySet.readByte, MemorySet.readByte, h.translate_parent hr]
    cases hp : parent.translate s v with
    | none => rfl
    | some p =>
      obtain ⟨hf, hheld, -⟩ := hr.frames v (hv.lt huser) p hp
      rw [Option.map_some, Option.map_some, h.rows _ hf hheld]
  · intro ws hws v hv
    constructor
    · refine writes_hidden (fun v hv p hp => ?_) hws hv
      obtain ⟨-, hheld, hno⟩ := hparent v hv p hp
      refine ⟨fun q hq => hno (htables q _ hq), fun q hq => ?_, fun v' hv' p' hp' =>
        hapart v' v p' p hv' hv hp' hp⟩
      rcases h.spaces.table_cases hc hq with hpriv | hK
      · exact h.tables q _ hpriv hheld
      · exact hno (.inl hK)
    · refine writes_hidden (fun v hv p hp => ?_) hws hv
      obtain ⟨d, hd, hbase⟩ := hchild v hv p hp
      have hok := h.copied d hd
      refine ⟨fun q hq => ?_, fun q hq => ?_, fun v' hv' p' hp' =>
        (hapart v v' p p' hv hv' hp hp').symm⟩
      · rw [hbase] at hq
        rcases h.spaces.table_cases hc hq with hpriv | hK
        · exact hok.outside.2.2 q hpriv
        · exact hok.fresh (hr.spaces.kept _ hK).2
      · rw [hbase] at hq
        exact hok.fresh (hr.spaces.tableFrame_held (htables q _ hq))

section Copied

variable (hr : ForkReady A K P kernelP4 parent s)
  (huser : ∀ a ∈ parent.vma.areasInOrder, a.UserHalf ∧ a.flags.contains .HUGE_PAGE = false)
  (hrun : parent.fork A kernelP4 s = (.ok child, s'))

include hr huser hrun

/-- A fork comes to its end by copying the pages of all areas. -/
theorem MemorySet.fork_forking : s.physOffset.isSome ∧ child.vma.areasInOrder = parent.vma.areasInOrder ∧
      ∃ done, Forking A K P child.p4Phys parent s done s' ∧
        done.map (fun d => (d.page, d.flags)) =
          parent.vma.areasInOrder.flatMap fun a => a.pages.map (·, a.flags) := by
  unfold MemorySet.fork at hrun
  rcases hnew : newBare A kernelP4 s with ⟨e | new, s1⟩
  · rw [hnew] at hrun
    cases hrun
  rw [hnew] at hrun
  simp only at hrun
  obtain ⟨-, -, -, hvma, -, -, hoff, -⟩ := newBare_spec hr.kernel.2 hnew
  have hempty : BoruixKernel.areas new.vma.root = [] := by
    rw [hvma]
    rfl
  have happart : AreasApart (BoruixKernel.areas new.vma.root ++ parent.vma.areasInOrder) := by
    rw [hempty, nil_append, VmaTree.areasInOrder_eq]
    exact parent.vma_good.apart
  obtain ⟨new', hpush, hp4, hareas⟩ := pushLazyAll_areas { new with
    stackBottom := parent.stackBottom, stackTop := parent.stackTop,
    stackLimit := parent.stackLimit } happart
  rw [hpush] at hrun
  simp only at hrun
  rcases hpages : forkPages A parent new'.p4Phys
    (parent.vma.areasInOrder.flatMap fun a => a.pages.map (·, a.flags)) s1 with ⟨e | _, s₂⟩
  · rw [hpages] at hrun
    cases e <;> cases hrun
  rw [hpages] at hrun
  cases hrun
  have hstart := Forking.start hr hnew
  have hok : ∀ p ∈ parent.vma.areasInOrder.flatMap fun a => a.pages.map (·, a.flags),
      p.1.IsPage ∧ p.1.asU64.toNat < UserEnd ∧ p.2.contains .HUGE_PAGE = false := by
    intro p hp
    obtain ⟨a, ha, hin⟩ := mem_flatMap.mp hp
    obtain ⟨page, hpage, rfl⟩ := mem_map.mp hin
    obtain ⟨hisPage, hlt⟩ := (huser a ha).1.isPage hpage
    exact ⟨hisPage, hlt, (huser a ha).2⟩
  obtain ⟨done, hdone, hmap⟩ := Forking.pages hr hoff hok (hp4.symm ▸ hstart) hpages
  refine ⟨hoff, ?_, done, hdone, hmap⟩
  rw [VmaTree.areasInOrder_eq, hareas, hempty, nil_append]

/-- The child can be forked again. -/
theorem MemorySet.fork_ready : ForkReady A K (insert child.p4Phys P) kernelP4 child s' := by
  obtain ⟨hoff, -, done, h, -⟩ := fork_forking hr huser hrun
  obtain ⟨hframe, hheld⟩ := hr.kernel
  refine ⟨h.spaces, ⟨hframe, h.more _ hframe hheld⟩, ?_, Set.mem_insert _ _, ?_⟩
  · rw [h.rows _ hframe hheld]
    exact hr.shared
  · intro v hlt p hp
    obtain ⟨d, hd, hbase⟩ := h.translate_child (h.offset ▸ hoff) (.inl hlt) hlt hp
    have hok := h.copied d hd
    rw [hbase]
    refine ⟨hok.outside.1, hok.outside.2.1, ?_⟩
    rintro (hK | ⟨p4, rfl | hp4, q, hq⟩)
    · exact hok.fresh (hr.spaces.kept _ hK).2
    · exact hok.outside.2.2 q hq
    · -- The other address spaces have the tables they had.
      refine hok.fresh ((hr.spaces.each p4 hp4).held q _ ?_)
      rw [← hq]
      refine (tableAt_same tableFormat (fun q t ht => priv_row (h.rows t ?_ ?_)) q).symm
      · exact tableOf_frame (hr.spaces.each p4 hp4).root ht
      · exact (hr.spaces.each p4 hp4).held q t ht

end Copied

/-- Where all areas are in the user half, and none asks for huge pages, `fork` gives a copy
that is isolated from the parent. -/
theorem MemorySet.fork_forkOf (hr : ForkReady A K P kernelP4 parent s)
    (huser : ∀ a ∈ parent.vma.areasInOrder, a.UserHalf ∧ a.flags.contains .HUGE_PAGE = false)
    (hrun : parent.fork A kernelP4 s = (.ok child, s')) : ForkOf s parent child s' := by
  obtain ⟨hoff, hareas, done, hdone, hmap⟩ := fork_forking hr huser hrun
  refine hdone.forkOf hr hoff hareas (fun a ha => (huser a ha).1) fun a ha page hpage => ?_
  have hmem : (page, a.flags) ∈ done.map fun d => (d.page, d.flags) := by
    rw [hmap]
    exact mem_flatMap.mpr ⟨a, ha, mem_map_of_mem hpage⟩
  obtain ⟨d, hd, heq⟩ := mem_map.mp hmem
  exact ⟨d, hd, Prod.mk.inj heq⟩

end Fork

/-! ## One page -/

/-- The kernel's P4 in frame 1 with the direct map under frame 2, and an address space
with nothing mapped in frame 3. -/
def forkStart : MmState BumpState where
  physOffset := some 0xffff800000000000
  tables p i := if (p = .ofPfn 1 ∨ p = .ofPfn 3) ∧ i.val = 256 then .pack (.ofPfn 2) .PRESENT else .new
  counts := some ⟨fun _ => 0, 1024⟩
  rmap := ∅
  alloc := ⟨4, [.ofPfn 1, .ofPfn 2, .ofPfn 3], by decide⟩

/-- The address space in frame 3, with one writable page recorded. -/
def lazySet (start stop : VirtAddr) : MemorySet :=
  (MemorySet.insertArea ⟨.ofPfn 3, .new, none, none, none, VmaTree.Good.new⟩
    (.new start stop (.WRITABLE ||| .USER_ACCESSIBLE))).2

theorem forkStart_clear (i : Fin 512) (hi : userHalf i = true) :
    forkStart.tables (.ofPfn 3) i = .new := by
  refine if_neg ?_
  rintro ⟨-, hval⟩
  simp [userHalf, hval] at hi

theorem forkStart_ready (start stop : VirtAddr) :
    ForkReady bumpAllocator {.ofPfn 2} {.ofPfn 3} (.ofPfn 1) (lazySet start stop) forkStart := by
  have hchild : ∀ p i t d, tableFormat.child d (forkStart.tables p i) = some t →
      (p = .ofPfn 1 ∨ p = .ofPfn 3) ∧ t = .ofPfn 2 := by
    intro p i t d ht
    simp only [forkStart] at ht
    split at ht
    · next hp =>
      exact ⟨hp.1, (of_child ht).2.symm.trans (addr_pack (by decide) _)⟩
    · rw [child_eq_none new_present] at ht
      cases ht
  have hheld : ∀ p ∈ [PhysAddr.ofPfn 1, .ofPfn 2, .ofPfn 3], p ∈ bumpAllocator.held forkStart.alloc :=
    fun _ hp => hp
  have hempty : EmptyP4 bumpAllocator (.ofPfn 3) (forkStart.priv userHalf (.ofPfn 3)) := by
    refine ⟨by decide, by decide, hheld _ (by decide), priv_eq_zero forkStart_clear, rfl, ?_⟩
    rintro c ⟨⟩
    exact ⟨rfl, rfl, fun _ _ _ => rfl⟩
  refine ⟨⟨?_, ?_, ?_, ?_, ?_, ?_⟩, ⟨by decide, hheld _ (by decide)⟩, ?_, rfl, ?_⟩
  · rintro _ rfl
    exact hempty.inv
  · rintro _ rfl _ rfl hne
    exact absurd rfl hne
  · rintro _ rfl i - t ht
    exact (hchild _ _ _ _ ht).2
  · rintro _ rfl d i t - ht
    rcases (hchild _ _ _ _ ht).1 with h | h <;> exact absurd h (by decide)
  · rintro _ rfl
    exact ⟨by decide, hheld _ (by decide)⟩
  · rintro _ rfl q t ht hK
    rw [(tableOf_priv_of_clear forkStart_clear ht).1] at hK
    exact absurd hK (by decide)
  · intro i _ t ht
    exact (hchild _ _ _ _ ht).2
  · intro v hlt p hp
    have hU := userHalf_of_lt hlt
    rw [translate_eq_mapper rfl] at hp
    obtain ⟨l, e, he, -⟩ := exists_pageLeaf hp
    cases (pageLeaf_of_clear hempty.inv forkStart_clear hU l).symm.trans he

/-- The child of a fork, and the state after it. -/
def forkBump (ms : MemorySet) (s : MmState BumpState) : MemorySet × MmState BumpState :=
  match ms.fork bumpAllocator (.ofPfn 1) s with
  | (.ok child, s') => (child, s')
  | (.error _, s') => (ms, s')

theorem forkBump_eq (ms : MemorySet) (h : (ms.fork bumpAllocator (.ofPfn 1) s).1.toBool = true) :
    ms.fork bumpAllocator (.ofPfn 1) s = (.ok (forkBump ms s).1, (forkBump ms s).2) := by
  unfold forkBump
  rcases hrun : ms.fork bumpAllocator (.ofPfn 1) s with ⟨_ | _, _⟩
  · rw [hrun] at h
    cases h
  · rfl

/-- A page to be copied: the child of a fork is forked again. -/
theorem forkOf_grandchild :
    let first := forkBump (lazySet ⟨0x400000⟩ ⟨0x401000⟩) forkStart
    let second := forkBump first.1 first.2
    (first.1.translate first.2 ⟨0x400000⟩).isSome ∧
      ForkOf first.2 first.1 second.1 second.2 := by
  have huser : ∀ a ∈ (lazySet ⟨0x400000⟩ ⟨0x401000⟩).vma.areasInOrder,
      a.UserHalf ∧ a.flags.contains .HUGE_PAGE = false := by
    have hone : (lazySet ⟨0x400000⟩ ⟨0x401000⟩).vma.areasInOrder =
        [.new ⟨0x400000⟩ ⟨0x401000⟩ (.WRITABLE ||| .USER_ACCESSIBLE)] := by decide +kernel
    rw [hone]
    intro a ha
    obtain rfl := mem_singleton.mp ha
    exact ⟨by unfold MemoryArea.UserHalf; decide, by decide⟩
  have hfirst := forkBump_eq (lazySet ⟨0x400000⟩ ⟨0x401000⟩) (s := forkStart) (by decide +kernel)
  have hready := fork_ready (forkStart_ready _ _) huser hfirst
  have hareas := (fork_forking (forkStart_ready _ _) huser hfirst).2.1
  refine ⟨by decide +kernel, fork_forkOf hready ?_ (forkBump_eq _ (by decide +kernel))⟩
  rw [hareas]
  exact huser

/-- A page in the kernel half is mapped in the tables that all address spaces share. -/
theorem fork_shares_kernel_page :
    let parent := lazySet ⟨0xffff800000400000⟩ ⟨0xffff800000401000⟩
    let fork := forkBump parent forkStart
    ForkReady bumpAllocator {.ofPfn 2} {.ofPfn 3} (.ofPfn 1) parent forkStart ∧
      (∀ a ∈ parent.vma.areasInOrder, a.start.isAligned 4096 ∧ a.end.isAligned 4096) ∧
      parent.fork bumpAllocator (.ofPfn 1) forkStart = (.ok fork.1, fork.2) ∧
      ¬ ForkOf forkStart parent fork.1 fork.2 := by
  refine ⟨forkStart_ready _ _, by decide +kernel, forkBump_eq _ (by decide +kernel), fun h => ?_⟩
  have hmap := h.mappings ⟨0xffff800000400000⟩
  revert hmap
  decide +kernel

end BoruixKernel
