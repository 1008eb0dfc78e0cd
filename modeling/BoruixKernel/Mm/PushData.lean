import BoruixKernel.Mm.PageContents
import BoruixKernel.Mm.PushUndo

/-!
# The data of a push

`push` copies to each page the data from the distance of the page to the start of the area on.
Where the start is not aligned the first page is below it, and the distance wraps around to a
number beyond the end of the data: nothing is copied there.  So the data arrive exactly if the
start is aligned, or if what belongs on the first page is zero (`push_placesData_iff`).
-/

namespace BoruixKernel

section Push

variable {σ : Type} {s s' : MmState σ} {ms ms' : MemorySet} {area : MemoryArea} {data : List UInt8}

/-- Data are at the start of the area, and everywhere else its pages are zero. -/
structure PlacesData (ms : MemorySet) (s : MmState σ) (area : MemoryArea) (data : List UInt8) :
    Prop where
  placed : ∀ i < data.length, ms.readByte s ⟨area.start.asU64 + UInt64.ofNat i⟩ = data[i]?
  zero : ∀ v : VirtAddr, v.alignDown 4096 ∈ area.pages →
    ¬ (area.start.asU64.toNat ≤ v.asU64.toNat ∧
      v.asU64.toNat < area.start.asU64.toNat + data.length) → ms.readByte s v = some 0

/-- After the loop every page is on a frame with its part of the data. -/
theorem pushPages_contents {data : Option (List UInt8)} (h : Tree A U p4 s)
    (hpages : ∀ page ∈ pages, U page.p4Index = true ∧ page.asU64.toNat % 4096 = 0)
    (hrun : pushPages A p4 area data pages mapped s = (.ok (), s')) :
    Grows A U p4 s s' ∧ ∀ page ∈ pages, ∃ frame, PageOn A U p4 page area.flags frame s' ∧
      s'.tables frame = pushRow area data page := by
  induction pages generalizing mapped s with
  | nil =>
    cases hrun
    exact ⟨.refl h, fun _ hpage => absurd hpage List.not_mem_nil⟩
  | cons page pages ih =>
    obtain ⟨⟨hU, haligned⟩, hrest⟩ := List.forall_mem_cons.mp hpages
    rw [pushPages] at hrun
    rcases halloc : A.allocateFrame s.alloc with ⟨_ | phys, a⟩
    · rw [halloc] at hrun
      cases hrun
    rw [halloc] at hrun
    simp only at hrun
    rcases hmap : mapPageInner A p4 page phys area.flags { s with alloc := a } with
      ⟨(e | msg) | _, s2⟩
    · rw [hmap] at hrun
      cases hrun
    · rw [hmap] at hrun
      cases hrun
    rw [hmap] at hrun
    replace hrun := (congrArg (pushPages A p4 area data pages (mapped ++ [(page, phys)]))
      (pushFill_eq area data page phys s2)).symm.trans hrun
    -- The frame is taken, mapped and filled.
    obtain ⟨hgrow1, hnew, hphys⟩ := h.grows_alloc halloc
    obtain ⟨hgrow2, hon⟩ := hgrow1.tree.grows_map hU haligned hphys hmap
    have hgrow := (hgrow1.trans hgrow2).fill hnew hon.spare (pushRow area data page)
    obtain ⟨hgrow', hdone⟩ := ih hgrow.tree hrest hrun
    have hon' := hon.fill hgrow2.tree hon.spare (pushRow area data page)
    refine ⟨hgrow.trans hgrow', List.forall_mem_cons.mpr ⟨⟨phys, hgrow'.pageOn hon', ?_⟩, hdone⟩⟩
    exact (hgrow'.rows phys hon'.spare).trans (Function.update_self ..)

/-- The byte that is copied to an address: the distance wraps where the page is below the
start. -/
theorem byte_pushRow (v : VirtAddr) (harea : area.UserHalf)
    (hlen : data.length ≤ area.end.asU64.toNat - area.start.asU64.toNat) :
    (pushRow area (some data) (v.alignDown 4096)).byte (v.asU64.toNat % 4096) =
      if area.start.asU64.toNat ≤ v.asU64.toNat / 4096 * 4096 then
        data.getD (v.asU64.toNat - area.start.asU64.toNat) 0 else 0 := by
  have hb : v.asU64.toNat % 4096 < 4096 := Nat.mod_lt _ (by decide)
  have hbyte : (pushRow area (some data) (v.alignDown 4096)).byte (v.asU64.toNat % 4096) =
      data.getD (((v.alignDown 4096).asU64 - area.start.asU64).toNat + v.asU64.toNat % 4096) 0 := by
    rw [pushRow, PageTable.byte_overwrite _ _ _ hb, if_pos (Nat.zero_le _), Nat.sub_zero,
      PageTable.byte_zero]
    exact Bytes.getD_slice data hb
  have hdown := v.toNat_alignDown_page
  rw [hbyte]
  split
  · next hle =>
    congr 1
    rw [UInt64.toNat_sub_of_le _ _ (UInt64.le_iff_toNat_le.mpr (hdown ▸ hle)), hdown]
    omega
  · refine List.getD_eq_default _ _ ?_
    have hstart := area.start.asU64.toNat_lt
    unfold MemoryArea.UserHalf UserEnd at harea
    rw [UInt64.toNat_sub, hdown]
    omega

/-- What is read from the pages after a `push`. -/
theorem readByte_push {U : Fin 512 → Bool} (hU : ∀ i : Fin 512, i.val < 256 → U i = true)
    (htree : Tree A U ms.p4Phys s) (harea : area.UserHalf)
    (hlen : data.length ≤ area.end.asU64.toNat - area.start.asU64.toNat)
    (hrun : ms.push A area (some data) s = (.ok (), ms', s')) {v : VirtAddr}
    (hv : v.alignDown 4096 ∈ area.pages) :
    ms'.readByte s' v = some (if area.start.asU64.toNat ≤ v.asU64.toNat / 4096 * 4096 then
      data.getD (v.asU64.toNat - area.start.asU64.toNat) 0 else 0) := by
  have hindex : ∀ page ∈ area.pages, U page.p4Index = true := fun page hpage =>
    hU _ (harea.p4Index_lt hpage)
  unfold MemorySet.push at hrun
  split at hrun
  · cases hrun
  · next hoff =>
    rcases hpages : pushPages A ms.p4Phys area (some data) area.pages [] s with ⟨e | ⟨⟩, s1⟩
    · rw [hpages] at hrun
      cases hrun
    rw [hpages] at hrun
    cases (Prod.ext_iff.mp hrun).2
    obtain ⟨hgrow, hdone⟩ := pushPages_contents htree (fun page hpage => ⟨hindex page hpage, by
      obtain ⟨k, hk, -⟩ := mem_pagesBetween_iff.mp hpage
      rw [hk, VirtAddr.toNat_alignDown_page]
      omega⟩) hpages
    obtain ⟨frame, hon, hrow⟩ := hdone _ hv
    have hread := hon.readByte hgrow.tree (v.p4Index_alignDown_page ▸ hindex _ hv) (by
      rw [hgrow.offset]
      simpa [Option.isSome_iff_ne_none] using hoff)
    rw [hrow, byte_pushRow v harea hlen] at hread
    exact hread

/-- The pages of an area have its addresses. -/
theorem MemoryArea.UserHalf.alignDown_mem (harea : area.UserHalf) {v : VirtAddr}
    (hle : area.start.asU64.toNat ≤ v.asU64.toNat) (hlt : v.asU64.toNat < area.end.asU64.toNat) :
    v.alignDown 4096 ∈ area.pages := by
  have hup := VirtAddr.toNat_alignUp_page harea
  have hstart := area.start.toNat_alignDown_page
  have hdown := v.toNat_alignDown_page
  exact mem_pagesBetween_iff.mpr
    ⟨v.asU64.toNat / 4096 - area.start.asU64.toNat / 4096, by omega, by omega⟩

end Push

/-- A `push` that succeeds places its data exactly if the start is aligned, or nothing but
zeros belongs on the first page. -/
theorem push_placesData_iff {σ : Type} {A : FrameAllocator σ} {U : Fin 512 → Bool}
    (hU : ∀ i : Fin 512, i.val < 256 → U i = true) {ms ms' : MemorySet} {s s' : MmState σ}
    (htree : Tree A U ms.p4Phys s) (area : MemoryArea) (data : List UInt8) (harea : area.UserHalf)
    (hlen : data.length ≤ area.end.asU64.toNat - area.start.asU64.toNat)
    (hrun : ms.push A area (some data) s = (.ok (), ms', s')) :
    PlacesData ms' s' area data ↔ area.start.asU64.toNat % 4096 = 0 ∨
      ∀ i < 4096 - area.start.asU64.toNat % 4096, data.getD i 0 = 0 := by
  have hread := @readByte_push _ _ _ _ _ _ _ _ _ hU htree harea hlen hrun
  have hadd : ∀ i < data.length, (area.start.asU64 + UInt64.ofNat i).toNat =
      area.start.asU64.toNat + i := by
    intro i hi
    have hend := area.end.asU64.toNat_lt
    rw [UInt64.toNat_add, UInt64.toNat_ofNat']
    omega
  have hbyte : ∀ i < data.length, ms'.readByte s' ⟨area.start.asU64 + UInt64.ofNat i⟩ =
      some (if area.start.asU64.toNat ≤ (area.start.asU64.toNat + i) / 4096 * 4096 then
        data.getD i 0 else 0) := by
    intro i hi
    have hv := hread (v := ⟨area.start.asU64 + UInt64.ofNat i⟩)
      (harea.alignDown_mem (by rw [hadd i hi]; omega) (by rw [hadd i hi]; omega))
    rw [hadd i hi, Nat.add_sub_cancel_left] at hv
    exact hv
  have hget : ∀ i < data.length, data[i]? = some (data.getD i 0) := fun i hi => by
    rw [List.getD_eq_getElem?_getD, List.getElem?_eq_getElem hi]
    rfl
  constructor
  · intro h
    by_contra! hno
    obtain ⟨haligned, i, hi, hne⟩ := hno
    have hlt : i < data.length := by
      by_contra hge
      exact hne (List.getD_eq_default _ _ (by omega))
    have hplaced := (hbyte i hlt).symm.trans ((h.placed i hlt).trans (hget i hlt))
    rw [if_neg (by omega)] at hplaced
    exact hne (Option.some.inj hplaced).symm
  · intro h
    refine ⟨fun i hi => ?_, fun v hv hout => ?_⟩
    · rw [hbyte i hi, hget i hi]
      split
      · rfl
      · rw [h.resolve_left (by omega) i (by omega)]
    · rw [hread hv]
      split
      · rw [List.getD_eq_default _ _ (by omega)]
      · rfl

/-- An area that starts in the middle of a page, with one byte of data. -/
def midPage : MemoryArea := .new ⟨0x400800⟩ ⟨0x401000⟩ (.WRITABLE ||| .USER_ACCESSIBLE)

theorem midPage_userHalf : midPage.UserHalf := by
  unfold MemoryArea.UserHalf
  decide

/-- A zero byte arrives. -/
theorem midPage_placesZero :
    let run := emptySet.push bumpAllocator midPage (some [0]) bumpStart
    PlacesData run.2.1 run.2.2 midPage [0] := by
  have hok : (emptySet.push bumpAllocator midPage (some [0]) bumpStart).1 = .ok () := by decide +kernel
  exact (push_placesData_iff (fun _ _ => rfl) (tree_of_emptyP4 bumpStart_emptyP4) midPage [0]
    midPage_userHalf (by decide) (Prod.ext hok rfl)).mpr (.inr fun i _ => by cases i <;> rfl)

/-- A byte that is not zero does not. -/
theorem midPage_not_placesData :
    Tree bumpAllocator everyEntry emptySet.p4Phys bumpStart ∧ midPage.UserHalf ∧
      let run := emptySet.push bumpAllocator midPage (some [7]) bumpStart
      run.1 = .ok () ∧ run.2.1.readByte run.2.2 ⟨0x400800⟩ = some 0 ∧
      ¬ PlacesData run.2.1 run.2.2 midPage [7] := by
  refine ⟨tree_of_emptyP4 bumpStart_emptyP4, midPage_userHalf, ?_⟩
  intro run
  have hread : run.2.1.readByte run.2.2 ⟨0x400800⟩ = some 0 := by decide +kernel
  refine ⟨by decide +kernel, hread, fun h => ?_⟩
  cases hread.symm.trans (h.placed 0 (by decide))

end BoruixKernel
