import BoruixKernel.Mm.PageTree
import BoruixKernel.Mm.RmapAgreement

/-!
# When mapping succeeds

`map_page` fails for want of a frame, or on an entry in its way.  With frames for three
tables, and tables whose entries are all unused, links or leaves, a 4 KiB page without a
leaf can be mapped (`mapPageInner_ok`).
-/

namespace BoruixKernel

open PointerTrie

variable {σ : Type} {A : FrameAllocator σ} {p4 frame : PhysAddr} {s : MmState σ} {a : σ}
  {flags : PageTableFlags}

section Supplies

variable {n : Nat}

/-- The allocator has frames for the next `n` calls, none of them at address zero. -/
def FrameAllocator.Supplies (A : FrameAllocator σ) : Nat → σ → Prop
  | 0, _ => True
  | n + 1, a => ∃ f b, A.allocateFrame a = (some f, b) ∧ f.asU64 ≠ 0 ∧ A.Supplies n b

theorem FrameAllocator.Supplies.mono (hmn : m ≤ n) (h : A.Supplies n a) : A.Supplies m a := by
  induction m generalizing n a with
  | zero => exact trivial
  | succ m ih =>
    cases n with
    | zero => exact absurd hmn (Nat.not_succ_le_zero m)
    | succ n =>
      obtain ⟨f, b, halloc, hne, hrest⟩ := h
      exact ⟨f, b, halloc, hne, ih (Nat.le_of_succ_le_succ hmn) hrest⟩

end Supplies

section Tidy

variable {t : PhysAddr} {q : List (Fin 512)} {i : Fin 512} {e : PageTableEntry} {c : PhysAddr}

/-- What the mapper leaves in an entry at depth `d`. -/
def TidyEntry (d : Nat) (e : PageTableEntry) : Prop :=
  e.isUnused = true ∨ (∃ c, e = .pack c linkFlags ∧ tableFormat.child d e = some c) ∨
    tableFormat.leaf d e = true

/-- All entries of the tables under a P4 are as the mapper leaves them. -/
def Tidy (p4 : PhysAddr) (T : PhysAddr → PageTable) : Prop :=
  ∀ q t, tableOf T p4 q = some t → ∀ i, TidyEntry q.length (T t i)

theorem tidyEntry_new (d : Nat) : TidyEntry d .new := .inl rfl

/-- Storing a tidy entry where no table is under the old one. -/
theorem Tidy.setLeaf (h : Tidy p4 s.tables) (hs : Separate tableFormat s.tables p4)
    (hq : tableOf s.tables p4 q = some t)
    (hold : tableFormat.child q.length (s.tables t i) = none)
    (hnew : tableFormat.leaf q.length e = true) : Tidy p4 (s.setEntry t i e).tables := by
  intro q' u hu j
  have hu' : tableOf s.tables p4 q' = some u :=
    (tableAt_setLeaf hs hq hold (child_of_leaf hnew) q').symm.trans hu
  change TidyEntry _ (PointerTrie.set s.tables t i e u j)
  rw [set_apply]
  split
  · next heq =>
    obtain ⟨rfl, rfl⟩ := heq
    rw [hs _ _ _ hu' hq]
    exact .inr (.inr hnew)
  · exact h q' u hu' j

/-- Hanging a fresh, zeroed table under an entry that is not present. -/
theorem Tidy.grow (h : Tidy p4 s.tables) (hinv : MapperInv A p4 s) (hq : tableOf s.tables p4 q = some t)
    (hlen : q.length < 3) (hold : (s.tables t i).present = false)
    (halloc : A.allocateFrame s.alloc = (some c, a)) :
    Tidy p4 (((({ s with alloc := a } : MmState σ).zeroFrame c).setEntry t i
      (.pack c linkFlags)).incCount c).tables := by
  obtain ⟨hcf, -, hcnew, -⟩ := A.allocate_some halloc
  have hfresh : ∀ q', tableOf s.tables p4 q' ≠ some c := fun q' hq' =>
    hcnew (hinv.held q' c hq')
  have hct : c ≠ t := by
    rintro rfl
    exact hfresh q hq
  intro q' u hu j
  rw [(hinv.grow hq hlen hold halloc).2.2 q'] at hu
  change TidyEntry _ (PointerTrie.set (Function.update s.tables c PageTable.zero) t i
    (.pack c linkFlags) u j)
  rw [set_apply]
  split at hu
  · cases hu
    rw [if_neg fun heq => hct heq.1]
    simp only [Function.update_self]
    exact tidyEntry_new _
  · have huc : u ≠ c := by
      rintro rfl
      exact hfresh q' hu
    simp only [Function.update_of_ne huc]
    split
    · next heq =>
      obtain ⟨rfl, rfl⟩ := heq
      rw [hinv.separate _ _ _ hu hq]
      exact .inr (.inl ⟨c, rfl, child_link hcf hlen⟩)
    · exact h q' u hu j

theorem link_huge (he : e = .pack c linkFlags) (hchild : tableFormat.child d e = some c) :
    e.huge = false := by
  have hframe : c.Frame := (of_child hchild).2 ▸ e.addr_frame
  rw [he, PageTableEntry.huge, PageTableEntry.flags_pack hframe]
  decide

/-- A tidy entry with a table under it is a link. -/
theorem TidyEntry.flags_eq (h : TidyEntry d e) (hchild : tableFormat.child d e = some c) :
    e.flags = linkFlags := by
  rcases h with hunused | ⟨c', he, hchild'⟩ | hleaf
  · rw [child_eq_none (not_present_of_isUnused hunused)] at hchild
    cases hchild
  · have hframe : c'.Frame := (of_child hchild').2 ▸ e.addr_frame
    rw [he, PageTableEntry.flags_pack hframe]
  · rw [child_of_leaf hleaf] at hchild
    cases hchild

/-- The next table is there, or there is a frame for it. -/
theorem getNextTableByIndex_ok (h : MapperInv A p4 s) (htidy : Tidy p4 s.tables)
    (hq : tableOf s.tables p4 q = some t) (hlen : q.length < 3)
    (hvacant : leafOf s.tables p4 q i = none) (hn : A.Supplies (n + 1) s.alloc) :
    ∃ c s', getNextTableByIndex A t i s = (.ok c, s') ∧ Tidy p4 s'.tables ∧
      A.Supplies n s'.alloc := by
  unfold getNextTableByIndex
  rcases htidy q t hq i with hunused | ⟨c, hlink, hchild⟩ | hleaf
  · have hold := not_present_of_isUnused hunused
    obtain ⟨f, b, halloc, hne, hrest⟩ := hn
    have haligned := (A.allocate_some halloc).1.isAligned
    simp only [hold, Bool.false_eq_true, if_false, halloc, if_neg hne, MmState.setAddr, haligned,
      if_true, MapResult.andThen]
    exact ⟨f, _, rfl, htidy.grow h hq hlen hold halloc, hrest⟩
  · have hpresent := (of_child hchild).1
    simp only [hpresent, if_true, link_huge hlink hchild, Bool.false_eq_true, if_false]
    exact ⟨_, s, rfl, htidy, hn.mono (Nat.le_succ n)⟩
  · rw [Option.eq_none_iff_forall_ne_some] at hvacant
    exact absurd (leafOf_eq_some.mpr ⟨t, hq, rfl, hleaf⟩) (hvacant _)

/-- A page without a leaf can be mapped. -/
theorem mapPageInner_ok (h : MapperInv A p4 s) (htidy : Tidy p4 s.tables)
    (hvacant : ∀ l, pageLeaf s.tables p4 l page = none) (hframe : frame.Frame)
    (hhuge : flags.contains .HUGE_PAGE = false) (hn : A.Supplies (n + 3) s.alloc) :
    ∃ s', mapPageInner A p4 page frame flags s = (.ok (), s') ∧ Tidy p4 s'.tables ∧
      A.Supplies n s'.alloc := by
  have hroot : leafOf s.tables p4 [] page.p4Index = none := rfl
  obtain ⟨p3, s3, h3, htidy3, hn3⟩ := getNextTableByIndex_ok h htidy rfl (by simp) hroot hn
  obtain ⟨hstep3, htab3⟩ := getNextTableByIndex_spec h (q := []) rfl (by simp) h3
  replace htab3 := htab3 p3 rfl
  obtain ⟨p2, s2, h2, htidy2, hn2⟩ := getNextTableByIndex_ok (i := page.p3Index)
    hstep3.inv htidy3 htab3 (by simp) ((hstep3.leaves _ _).trans (hvacant .giant)) hn3
  obtain ⟨hstep2, htab2⟩ := getNextTableByIndex_spec hstep3.inv htab3 (by simp) h2
  replace htab2 := htab2 p2 rfl
  replace hstep2 := hstep3.trans hstep2
  obtain ⟨p1, s1, h1, htidy1, hn1⟩ := getNextTableByIndex_ok (i := page.p2Index)
    hstep2.inv htidy2 htab2 (by simp) ((hstep2.leaves _ _).trans (hvacant .large)) hn2
  obtain ⟨hstep1, htab1⟩ := getNextTableByIndex_spec hstep2.inv htab2 (by simp) h1
  replace htab1 := htab1 p1 rfl
  replace hstep1 := hstep2.trans hstep1
  have hno : leafOf s1.tables p4 (PageLevel.small.path page) page.p1Index = none :=
    (hstep1.leaves _ _).trans (hvacant .small)
  have hunused : (s1.tables p1 page.p1Index).isUnused = true := by
    rcases htidy1 _ p1 htab1 page.p1Index with hunused | ⟨c, -, hchild⟩ | hleaf
    · exact hunused
    · cases hchild
    · rw [Option.eq_none_iff_forall_ne_some] at hno
      exact absurd (leafOf_eq_some.mpr ⟨p1, htab1, rfl, hleaf⟩) (hno _)
  have hleaf : tableFormat.leaf 3 (.pack frame (flags ||| .PRESENT)) = true :=
    @PageLevel.leaf_pack frame page .small flags hframe
  have htidy' : Tidy p4 (s1.setEntry p1 page.p1Index (.pack frame (flags ||| .PRESENT))).tables :=
    htidy1.setLeaf hstep1.inv.separate htab1 (child_eq_none (not_present_of_isUnused hunused) _) hleaf
  unfold mapPageInner
  simp only [h3, MapResult.andThen]
  simp only [hhuge, Bool.false_and, Bool.false_eq_true, if_false, h2]
  simp only [h1, hunused, Bool.not_true, Bool.false_eq_true, if_false, MmState.setAddr,
    hframe.isAligned, if_true]
  split
  · exact ⟨_, rfl, htidy', hn1⟩
  · exact ⟨_, rfl, htidy', hn1⟩

end Tidy

/-! ## Room for pages -/

section Room

variable {U : Fin 512 → Bool}
  {page : VirtAddr} {pages : List VirtAddr} {n : Nat}

/-- A row that is not a table does not matter for the entries. -/
theorem Tidy.congr (h : Tidy p4 T)
    (hrow : ∀ q t, tableOf T' p4 q = some t → T t = T' t) : Tidy p4 T' := by
  intro q t ht i
  rw [← hrow q t ht]
  exact h q t ((tableAt_same tableFormat hrow q).trans ht) i

/-- Pages that can be mapped, and frames to do it. -/
structure Room (A : FrameAllocator σ) (U : Fin 512 → Bool) (p4 : PhysAddr) (pages : List VirtAddr)
    (n : Nat) (s : MmState σ) : Prop where
  tree : Tree A U p4 s
  tidy : Tidy p4 (s.priv U p4).tables
  isPage : ∀ page ∈ pages, page.IsPage ∧ U page.p4Index = true
  nodup : pages.Nodup
  vacant : ∀ page ∈ pages, ∀ l, pageLeaf (s.priv U p4).tables p4 l page = none
  frames : A.Supplies n s.alloc

theorem Room.alloc (h : Room A U p4 pages (n + 1) s) : ∃ phys a,
    A.allocateFrame s.alloc = (some phys, a) ∧ phys.asU64 ≠ 0 ∧
      phys ∈ spareFrames A U p4 { s with alloc := a } ∧ Room A U p4 pages n { s with alloc := a } := by
  obtain ⟨phys, a, halloc, hne, hframes⟩ := h.frames
  obtain ⟨htree, hspare⟩ := h.tree.alloc halloc
  exact ⟨phys, a, halloc, hne, hspare ▸ Set.mem_insert _ _, htree, h.tidy, h.isPage, h.nodup,
    h.vacant, hframes⟩

/-- A frame that is no table is filled. -/
theorem Room.fill (h : Room A U p4 pages n s) (hframe : frame ∈ spareFrames A U p4 s) (row : PageTable) :
    Room A U p4 pages n { s with tables := Function.update s.tables frame row } := by
  obtain ⟨htree, hspare, hleaves⟩ := h.tree.fill hframe row
  refine ⟨htree, h.tidy.congr fun q t ht => ?_, h.isPage, h.nodup,
    fun page hpage l => (hleaves _ _).trans (h.vacant page hpage l), h.frames⟩
  refine priv_row (Function.update_of_ne ?_ _ _).symm
  rintro rfl
  exact (hspare ▸ hframe).2.2 q ht

theorem Room.map (h : Room A U p4 (page :: pages) (n + 3) s) (hframe : frame ∈ spareFrames A U p4 s)
    (hhuge : flags.contains .HUGE_PAGE = false) : ∃ s',
      mapPageInner A p4 page frame flags s = (.ok (), s') ∧ frame ∈ spareFrames A U p4 s' ∧
      Room A U p4 pages n s' := by
  obtain ⟨⟨hpage, hU⟩, hrest⟩ := List.forall_mem_cons.mp h.isPage
  obtain ⟨hvacant, hfree⟩ := List.forall_mem_cons.mp h.vacant
  obtain ⟨hnotin, hnodup⟩ := List.nodup_cons.mp h.nodup
  obtain ⟨_, hmap, htidy, hframes⟩ :=
    mapPageInner_ok h.tree h.tidy hvacant hframe.1 hhuge h.frames
  rw [mapPageInner_shade h.tree hU, mapPageInner_recount countsNaturally_none] at hmap
  rcases hrun : mapPageInner A p4 page frame flags s with ⟨r, s'⟩
  rw [hrun] at hmap
  cases hmap
  have hspare := (h.tree.spareFrames_map hU hframe.1.2 hrun (by simp)).1
  obtain ⟨-, ⟨-, -, hadd⟩ | ⟨⟨_, hno⟩, -⟩⟩ := h.tree.map hU hframe.1.2 hrun
  rotate_left
  · cases hno
  refine ⟨s', rfl, hspare ▸ hframe, hadd.inv, htidy, hrest, hnodup, fun p hp l => ?_, hframes⟩
  refine (hadd.leaves _ _).trans ((if_neg ?_).trans (hfree p hp l))
  rw [selectLevel_small hhuge]
  rintro ⟨hpath, hindex⟩
  obtain rfl := PageLevel.path_length _ _ _ hpath
  have hsame := (PageLevel.small.slot_eq_iff (hrest p hp).1.1 hpage.1).mp ⟨hpath, hindex⟩
  exact hnotin (eq_of_page (hrest p hp).1 hpage hsame ▸ hp)

end Room

end BoruixKernel
