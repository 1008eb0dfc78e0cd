import BoruixKernel.Mm.AddressSpace
import BoruixKernel.Mm.MapperCounts
import BoruixKernel.Mm.PageTree
import BoruixKernel.Mm.VmaReject

/-!
# Failed pushes

`push` allocates the frame of a page before it maps the page.  If mapping fails, the rollback
gives back the frames of the pages before, and the frame of the page itself is lost.  If there
is no frame for a page, or the area is rejected, there is no rollback at all.  So a failed push
is undone exactly if it never got a frame (`RangeCall.undone_iff`).
-/

namespace BoruixKernel

open PointerTrie

section Undone

variable {σ : Type}

/-- There are finitely many addresses. -/
instance : Finite PhysAddr :=
  .of_injective (fun p : PhysAddr => p.asU64.toFin) fun p q h => by
    cases p; cases q; simpa [UInt64.toFin_inj] using h

/-- The frames in use that are not page tables of the address space. -/
def MemorySet.leafFrames (A : FrameAllocator σ) (ms : MemorySet) (s : MmState σ) : Set PhysAddr :=
  {f | Outside A ms.p4Phys s f}

/-- Every translation, the set of areas and the number of leaf frames are as before. -/
structure SameSpace (A : FrameAllocator σ) (ms : MemorySet) (s : MmState σ) (ms' : MemorySet)
    (s' : MmState σ) : Prop where
  translations : ∀ v, ms'.translate s' v = ms.translate s v
  areas : ∀ a, a ∈ ms'.vma.areasInOrder ↔ a ∈ ms.vma.areasInOrder
  leafFrames : (ms'.leafFrames A s').encard = (ms.leafFrames A s).encard

/-- A call that maps a range. -/
inductive RangeCall where
  | push (area : MemoryArea) (data : Option (List UInt8))
  | mapUserRange (start stop : VirtAddr) (flags : PageTableFlags)

def RangeCall.area : RangeCall → MemoryArea
  | push area _ => area
  | mapUserRange start stop flags => .new start stop flags

def RangeCall.run (A : FrameAllocator σ) (ms : MemorySet) (s : MmState σ) :
    RangeCall → Except MapFault Unit × MemorySet × MmState σ
  | push area data => ms.push A area data s
  | mapUserRange start stop flags => ms.mapUserRange A start stop flags s

end Undone

section Push

variable {A : FrameAllocator σ} {s₀ s s' : MmState σ} {ms ms' : MemorySet} {area : MemoryArea}
  {data : Option (List UInt8)} {e : MapError}

/-- What `push` puts into the frame of a page. -/
def pushRow (area : MemoryArea) (data : Option (List UInt8)) (page : VirtAddr) : PageTable :=
  match data with
  | some data => PageTable.zero.overwrite 0 (pageData area.start page data)
  | none => .zero

/-- The frame is cleared and filled. -/
theorem pushFill_eq (area : MemoryArea) (data : Option (List UInt8)) (page : VirtAddr)
    (phys : PhysAddr) (s : MmState σ) :
    (match data with
      | some data => (s.zeroFrame phys).storeBytes phys 0 (pageData area.start page data)
      | none => s.zeroFrame phys) =
      { s with tables := Function.update s.tables phys (pushRow area data page) } := by
  cases data with
  | none => rfl
  | some data =>
    simp [MmState.storeBytes, MmState.zeroFrame, pushRow]

/-- The rollback gives back tables and the frames it was told to. -/
theorem rollback_outside (hs : Separate tableFormat s.tables p4) (hf : Outside A p4 s f)
    (hmapped : ∀ m ∈ mapped, m.2 ≠ f) : Outside A p4 (rollback A p4 mapped s) f := by
  have hrev : ∀ m ∈ mapped.reverse, m.2 ≠ f := fun m hm => hmapped m (List.mem_reverse.mp hm)
  unfold rollback
  generalize mapped.reverse = l at hrev
  induction l generalizing s with
  | nil => exact hf
  | cons m l ih =>
    obtain ⟨page, phys⟩ := m
    obtain ⟨hne, hrest⟩ := List.forall_mem_cons.mp hrev
    rw [List.foldl_cons]
    rcases hun : unmapPageInner A p4 page s with ⟨_ | p, s1⟩
    · have hpruned := unmapPageInner_pruned hs hun
      simp only [hun]
      exact ih hpruned.separate (hpruned.spare f hf) hrest
    · have hpruned := unmapPageInner_pruned hs hun
      have hf1 := hpruned.spare f hf
      simp only [hun]
      refine ih (s := s1.release A phys) hpruned.separate ⟨hf1.1, ?_, hf1.2.2⟩ hrest
      change f ∈ A.held (A.deallocateFrame s1.alloc phys)
      rw [A.deallocate]
      exact ⟨hf1.2.1, hne.symm⟩

/-- The loop of `push` keeps the leaf frames there were, and leaves one more if it gets a
frame.  `s₀` is the state before the loop. -/
theorem pushPages_leafFrames (h : Tree A everyEntry p4 s)
    (hsub : spareFrames A everyEntry p4 s₀ ⊆ spareFrames A everyEntry p4 s)
    (hheld : ∀ f : PhysAddr, f.Frame → f ∈ A.held s₀.alloc → f ∈ A.held s.alloc)
    (hmapped : ∀ m ∈ mapped, m.2 ∈ spareFrames A everyEntry p4 s ∧ m.2 ∉ A.held s₀.alloc)
    (hrun : pushPages A p4 area data pages mapped s = (r, s')) (hr : ∀ msg, r ≠ .error (.panic msg))
    (hsome : mapped ≠ [] ∨ pages ≠ [] ∧ (A.allocateFrame s.alloc).1 ≠ none) :
    spareFrames A everyEntry p4 s₀ ⊂ spareFrames A everyEntry p4 s' := by
  -- A frame that was not in use before is a new leaf frame.
  have hstrict : ∀ s1 : MmState σ, spareFrames A everyEntry p4 s₀ ⊆ spareFrames A everyEntry p4 s1 →
      ∀ f ∈ spareFrames A everyEntry p4 s1, f ∉ A.held s₀.alloc →
      spareFrames A everyEntry p4 s₀ ⊂ spareFrames A everyEntry p4 s1 := fun s1 hle f hf hnew =>
    Set.ssubset_iff_of_subset hle |>.mpr ⟨f, hf, fun hf0 => hnew hf0.2.1⟩
  induction pages generalizing mapped s with
  | nil =>
    cases hrun
    obtain ⟨m, hm⟩ := List.exists_mem_of_ne_nil _ (hsome.resolve_right fun h => h.1 rfl)
    exact hstrict _ hsub _ (hmapped m hm).1 (hmapped m hm).2
  | cons page pages ih =>
    rw [pushPages] at hrun
    rcases halloc : A.allocateFrame s.alloc with ⟨_ | phys, a⟩
    · rw [halloc] at hrun hsome
      cases hrun
      obtain ⟨m, hm⟩ := List.exists_mem_of_ne_nil _ (hsome.resolve_right fun h => h.2 rfl)
      have hsame := (h.alloc_none halloc).2
      rw [← hsame] at hsub
      exact hstrict _ hsub m.2 (hsame ▸ (hmapped m hm).1) (hmapped m hm).2
    · obtain ⟨hframe, -, hnew, hheld'⟩ := A.allocate_some halloc
      obtain ⟨htree1, hspare1⟩ := h.alloc halloc
      rw [halloc] at hrun
      simp only at hrun
      have hnew0 : phys ∉ A.held s₀.alloc := fun hmem => hnew (hheld _ hframe hmem)
      rcases hmap : mapPageInner A p4 page phys area.flags { s with alloc := a } with
        ⟨(e | msg) | _, s2⟩
      · rw [hmap] at hrun
        cases hrun
        obtain ⟨hspare2, -⟩ := htree1.spareFrames_map rfl hframe.2 hmap (by simp)
        have hsep2 : Separate tableFormat s2.tables p4 :=
          Tree.separate_every (htree1.map rfl hframe.2 hmap).1.inv
        -- Only the frames of the pages before come back.
        have hkept : ∀ f ∈ insert phys (spareFrames A everyEntry p4 s), (∀ m ∈ mapped, m.2 ≠ f) →
            f ∈ spareFrames A everyEntry p4 (rollback A p4 mapped s2) := by
          intro f hf hne
          rw [← hspare1, ← hspare2, mem_spareFrames_every] at hf
          exact mem_spareFrames_every.mpr (rollback_outside hsep2 hf hne)
        refine hstrict _ (fun f hf => ?_) phys ?_ hnew0
        · refine hkept f (Set.mem_insert_of_mem _ (hsub hf)) fun m hm heq => ?_
          exact (hmapped m hm).2 (heq ▸ hf.2.1)
        · refine hkept phys (Set.mem_insert _ _) fun m hm heq => ?_
          exact hnew (heq ▸ (hmapped m hm).1.2.1)
      · rw [hmap] at hrun
        cases hrun
        exact absurd rfl (hr msg)
      · rw [hmap] at hrun
        obtain ⟨hspare2, -⟩ := htree1.spareFrames_map rfl hframe.2 hmap (by simp)
        have htree2 : Tree A everyEntry p4 s2 := (htree1.map rfl hframe.2 hmap).1.inv
        replace hrun := (congrArg (pushPages A p4 area data pages (mapped ++ [(page, phys)]))
          (pushFill_eq area data page phys s2)).symm.trans hrun
        have hphys : phys ∈ spareFrames A everyEntry p4 s2 := by
          rw [hspare2, hspare1]
          exact Set.mem_insert _ _
        obtain ⟨htree3, hspare3, -⟩ := htree2.fill hphys (pushRow area data page)
        have hspare : spareFrames A everyEntry p4
            { s2 with tables := Function.update s2.tables phys (pushRow area data page) } =
            insert phys (spareFrames A everyEntry p4 s) := by rw [hspare3, hspare2, hspare1]
        have hsub3 := Set.subset_insert phys (spareFrames A everyEntry p4 s)
        refine ih htree3 ?_ ?_ ?_ hrun (.inl (by simp))
        · rw [hspare]
          exact hsub.trans hsub3
        · intro f hf hmem
          have hkept := hheld' ▸ Set.mem_insert_of_mem phys (hheld f hf hmem)
          exact (htree1.held_map rfl hframe.2 hmap hf hkept :)
        · intro m hm
          rw [hspare]
          rcases List.mem_append.mp hm with hm | hm
          · exact ⟨hsub3 (hmapped m hm).1, (hmapped m hm).2⟩
          · obtain rfl := List.mem_singleton.mp hm
            exact ⟨Set.mem_insert _ _, hnew0⟩

/-- More leaf frames than before is not the same number. -/
theorem not_sameSpace_of_ssubset (hp4 : ms'.p4Phys = ms.p4Phys)
    (h : spareFrames A everyEntry ms.p4Phys s ⊂ spareFrames A everyEntry ms.p4Phys s') :
    ¬ SameSpace A ms s ms' s' := by
  intro hsame
  have heq : ∀ s, spareFrames A everyEntry ms.p4Phys s = {f | Outside A ms.p4Phys s f} := fun s =>
    Set.ext fun f => mem_spareFrames_every
  rw [heq, heq] at h
  have hcard := (Set.toFinite {f | Outside A ms.p4Phys s f}).encard_lt_encard h
  have hsame := hsame.leafFrames
  simp only [MemorySet.leafFrames, hp4] at hsame
  exact hcard.ne hsame.symm

theorem SameSpace.alloc_none (halloc : A.allocateFrame s.alloc = (none, a)) :
    SameSpace A ms s ms { s with alloc := a } where
  translations _ := rfl
  areas _ := Iff.rfl
  leafFrames := by
    have hheld := A.allocate_none halloc
    simp [MemorySet.leafFrames, Outside, hheld]

/-- A failed call is a failed `push`. -/
theorem RangeCall.push_of_run {c : RangeCall} {e : MapFault}
    (hrun : c.run A ms s = (.error e, ms', s')) :
    ∃ data, ms.push A c.area data s = (.error e, ms', s') := by
  cases c with
  | push area data => exact ⟨data, hrun⟩
  | mapUserRange start stop flags =>
    change ms.mapUserRange A start stop flags s = _ at hrun
    unfold MemorySet.mapUserRange at hrun
    split at hrun
    · cases hrun
    · exact ⟨none, hrun⟩

/-- A rejected area leaves the others as they are exactly then. -/
theorem MemorySet.insertArea_rejected_iff_keeps (hins : ms.insertArea area = (.error e, ms')) :
    (∀ a, a ∈ ms'.vma.areasInOrder ↔ a ∈ ms.vma.areasInOrder) ↔ ms.vma.KeepsOnReject area := by
  obtain ⟨hr, rfl⟩ := Prod.ext_iff.mp hins
  exact ⟨fun h => (ms.vma_good.rejected_iff area).mp fun _ => h,
    fun h => (ms.vma_good.rejected_iff area).mpr h ⟨e, hr⟩⟩

/-- A `push` with no page to map only records the area. -/
theorem push_nil_iff (hoffset : s.physOffset ≠ none) (hpages : area.pages = [])
    (hpush : ms.push A area data s = (.error (.err e), ms', s')) :
    SameSpace A ms s ms' s' ↔ ms.vma.KeepsOnReject area := by
  simp only [MemorySet.push, Option.isNone_iff_eq_none, hoffset, if_false, hpages, pushPages] at hpush
  rcases hins : ms.insertArea area with ⟨e' | _, ms1⟩
  · rw [hins] at hpush
    cases hpush
    rw [← MemorySet.insertArea_rejected_iff_keeps hins]
    obtain ⟨-, rfl⟩ := Prod.ext_iff.mp hins
    exact ⟨fun h => h.areas, fun h => ⟨fun _ => rfl, h, rfl⟩⟩
  · rw [hins] at hpush
    cases hpush

/-- A `push` that gets a frame and fails leaves a leaf frame more. -/
theorem push_not_sameSpace (htree : Tree A everyEntry ms.p4Phys s) (hoffset : s.physOffset ≠ none)
    (hpages : area.pages ≠ []) (halloc : (A.allocateFrame s.alloc).1 ≠ none)
    (hpush : ms.push A area data s = (.error (.err e), ms', s')) : ¬ SameSpace A ms s ms' s' := by
  simp only [MemorySet.push, Option.isNone_iff_eq_none, hoffset, if_false] at hpush
  rcases hrun : pushPages A ms.p4Phys area data area.pages [] s with ⟨r, s1⟩
  have hmore : (∀ msg, r ≠ .error (.panic msg)) →
      spareFrames A everyEntry ms.p4Phys s ⊂ spareFrames A everyEntry ms.p4Phys s1 := fun hr =>
    pushPages_leafFrames htree subset_rfl (fun _ _ => id) (by simp) hrun hr (.inr ⟨hpages, halloc⟩)
  rw [hrun] at hpush
  cases r with
  | error e' =>
    cases hpush
    exact not_sameSpace_of_ssubset rfl (hmore (by simp))
  | ok =>
    obtain ⟨-, hms⟩ := Prod.ext_iff.mp hpush
    obtain ⟨rfl, rfl⟩ := Prod.ext_iff.mp hms
    exact not_sameSpace_of_ssubset rfl (hmore (by simp))

/-- A failed call is undone exactly if it never got a frame and, where it had no page to map,
the areas were kept. -/
theorem RangeCall.undone_iff (htree : Tree A everyEntry ms.p4Phys s) (c : RangeCall)
    {e : MapError} (hrun : c.run A ms s = (.error (.err e), ms', s')) :
    SameSpace A ms s ms' s' ↔
      s.physOffset = none ∨ (c.area.pages ≠ [] ∧ (A.allocateFrame s.alloc).1 = none) ∨
        (c.area.pages = [] ∧ ms.vma.KeepsOnReject c.area) := by
  obtain ⟨data, hpush⟩ := push_of_run hrun
  by_cases hoffset : s.physOffset = none
  · simp only [MemorySet.push, Option.isNone_iff_eq_none, hoffset, if_true] at hpush
    cases hpush
    exact iff_of_true ⟨fun _ => rfl, fun _ => Iff.rfl, rfl⟩ (.inl hoffset)
  by_cases hpages : c.area.pages = []
  · rw [push_nil_iff hoffset hpages hpush]
    simp [hoffset, hpages]
  by_cases halloc : (A.allocateFrame s.alloc).1 = none
  · refine iff_of_true ?_ (.inr (.inl ⟨hpages, halloc⟩))
    obtain ⟨page, pages, hcons⟩ := List.exists_cons_of_ne_nil hpages
    have hpair : A.allocateFrame s.alloc = (none, (A.allocateFrame s.alloc).2) :=
      Prod.ext halloc rfl
    simp only [MemorySet.push, Option.isNone_iff_eq_none, hoffset, if_false, hcons, pushPages] at hpush
    rw [hpair] at hpush
    cases hpush
    exact .alloc_none hpair
  · refine iff_of_false (push_not_sameSpace htree hoffset hpages halloc hpush) ?_
    simp [hoffset, hpages, halloc]

end Push

/-- An address space without areas over the P4 in frame 1. -/
def emptySet : MemorySet := ⟨.ofPfn 1, .new, none, none, none, VmaTree.Good.new⟩

/-- Map two pages. -/
def twoPages : RangeCall := .mapUserRange ⟨0x400000⟩ ⟨0x402000⟩ (.WRITABLE ||| .USER_ACCESSIBLE)

/-- The start with frames for one page and its tables. -/
def bumpFour : MmState BumpState := { bumpStart with alloc := ⟨1020, [.ofPfn 1], by decide⟩ }

theorem bumpFour_emptyP4 : EmptyP4 bumpAllocator (.ofPfn 1) bumpFour :=
  have h := bumpFull_emptyP4
  ⟨h.frame, h.below, h.held, h.zero, h.offset, h.counts⟩

theorem tree_of_emptyP4 (h : EmptyP4 A p4 s) : Tree A everyEntry p4 s := by
  refine MapperInv.tree ?_
  rw [priv_univ]
  exact h.inv

/-- With no frame to hand out nothing changes. -/
theorem twoPages_undone :
    SameSpace bumpAllocator emptySet bumpFull (twoPages.run bumpAllocator emptySet bumpFull).2.1
      (twoPages.run bumpAllocator emptySet bumpFull).2.2 := by
  have hrun : twoPages.run bumpAllocator emptySet bumpFull =
      (.error (.err .FrameAllocationFailed), emptySet, bumpFull) := rfl
  rw [hrun]
  exact (RangeCall.undone_iff (tree_of_emptyP4 bumpFull_emptyP4) twoPages hrun).mpr
    (.inr (.inl ⟨by decide, rfl⟩))

/-- When memory runs out at the second page, the first one stays mapped, and no area has it. -/
theorem twoPages_not_undone :
    Tree bumpAllocator everyEntry (.ofPfn 1) bumpFour ∧
      let run := twoPages.run bumpAllocator emptySet bumpFour
      run.1 = .error (.err .FrameAllocationFailed) ∧
      emptySet.translate bumpFour ⟨0x400000⟩ = none ∧
      run.2.1.translate run.2.2 ⟨0x400000⟩ = some (.ofPfn 1020) ∧
      run.2.1.vma.areasInOrder = [] ∧
      ¬ SameSpace bumpAllocator emptySet bumpFour run.2.1 run.2.2 := by
  refine ⟨tree_of_emptyP4 bumpFour_emptyP4, ?_⟩
  intro run
  have hbefore : emptySet.translate bumpFour ⟨0x400000⟩ = none := by decide +kernel
  have hafter : run.2.1.translate run.2.2 ⟨0x400000⟩ = some (.ofPfn 1020) := by decide +kernel
  refine ⟨by decide +kernel, hbefore, hafter, by decide +kernel, fun hsame => ?_⟩
  have htranslate := hsame.translations ⟨0x400000⟩
  rw [hbefore, hafter] at htranslate
  cases htranslate

end BoruixKernel
