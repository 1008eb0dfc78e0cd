import BoruixKernel.Lib.Bytes
import BoruixKernel.Mm.UserRange

/-!
# Pages and what they hold

A page is on a frame (`PageOn`) if its address leads to the frame and the frame is no table.
What the operations do on the way to a new page, taking a frame, filling it and mapping it,
moves no page and changes no frame that another page is on (`Grows`).
-/

namespace BoruixKernel

open PointerTrie PageTableFlags

/-! ## Bytes of a frame -/

theorem PageTable.byte_ofBytes (f : Nat → UInt8) (hb : b < 4096) :
    (PageTable.ofBytes f).byte b = f b := by
  have hword : ∀ l : List UInt8, l.length ≤ 8 →
      (l.foldr (fun b (w : UInt64) => (w <<< 8) ||| b.toUInt64) 0).toNat = Bytes.toNat l := by
    intro l hl
    induction l with
    | nil => rfl
    | cons c l ih =>
      have hlt := Bytes.toNat_lt l
      have hpow : 256 ^ l.length ≤ 256 ^ 7 := Nat.pow_le_pow_right (by decide) (Nat.le_of_succ_le_succ hl)
      have hc := c.toNat_lt
      rw [List.foldr_cons, UInt64.toNat_or, UInt64.toNat_shiftLeft, ih (Nat.le_of_succ_le hl),
        UInt8.toNat_toUInt64, Bytes.toNat]
      have hsmall : Bytes.toNat l <<< 8 < 2 ^ 64 := by
        rw [Nat.shiftLeft_eq]
        omega
      rw [show (8 : UInt64).toNat % 64 = 8 from rfl, Nat.mod_eq_of_lt hsmall,
        ← Nat.shiftLeft_add_eq_or_of_lt (i := 8) hc, Nat.shiftLeft_eq]
      omega
  have hentry := hword ((List.range 8).map fun k => f (8 * (b / 8) + k)) (by simp)
  rw [List.foldr_map] at hentry
  have hidx : (Fin.ofNat 512 (b / 8) : Fin 512).val = b / 8 := Nat.mod_eq_of_lt (by omega)
  have hshift : (UInt64.ofNat (8 * (b % 8))).toNat % 64 = 8 * (b % 8) := by
    rw [UInt64.toNat_ofNat']
    omega
  have hget := Bytes.toNat_div_mod ((List.range 8).map fun k => f (8 * (b / 8) + k)) (b % 8)
  apply UInt8.toNat_inj.mp
  rw [byte, ofBytes, hidx, UInt64.toNat_toUInt8, UInt64.toNat_shiftRight, hshift, hentry,
    Nat.shiftRight_eq_div_pow, Nat.pow_mul, show (2 : Nat) ^ 8 = 256 from rfl, hget]
  have hmod : b % 8 < 8 := Nat.mod_lt _ (by decide)
  rw [List.getD_eq_getElem?_getD, List.getElem?_map, List.getElem?_range hmod, Option.map_some,
    Option.getD_some, Nat.div_add_mod]

theorem PageTable.byte_overwrite (t : PageTable) (off : Nat) (data : List UInt8)
    (hb : b < 4096) : (t.overwrite off data).byte b =
      if off ≤ b then data.getD (b - off) (t.byte b) else t.byte b :=
  byte_ofBytes _ hb

section Pages

variable {σ : Type} {A : FrameAllocator σ} {U : Fin 512 → Bool} {p4 frame : PhysAddr}
  {s s' s₁ s₂ : MmState σ} {page v : VirtAddr} {flags : PageTableFlags} {ms : MemorySet}

/-- The page is mapped on the frame with the flags, or more of them. -/
structure PageOn (A : FrameAllocator σ) (U : Fin 512 → Bool) (p4 : PhysAddr) (page : VirtAddr)
    (flags : PageTableFlags) (frame : PhysAddr) (s : MmState σ) : Prop where
  spare : frame ∈ spareFrames A U p4 s
  leaf : ∃ l e, pageLeaf (s.priv U p4).tables p4 l page = some e ∧ l.apply page e = frame ∧
    e.flags.contains flags = true

theorem pageLeaf_alignDown (T : PhysAddr → PageTable) (l : PageLevel) (v : VirtAddr) :
    pageLeaf T p4 l (v.alignDown 4096) = pageLeaf T p4 l v := by
  cases l <;> simp [pageLeaf, PageLevel.path, PageLevel.index]

/-- An address of the page is as far into the frame as it is into the page. -/
theorem toNat_apply_alignDown (l : PageLevel) (v : VirtAddr) (e : PageTableEntry) :
    (l.apply v e).asU64.toNat =
      (l.apply (v.alignDown 4096) e).asU64.toNat + v.asU64.toNat % 4096 := by
  obtain ⟨k, hk⟩ := l.size_cases.1
  rw [toNat_apply, toNat_apply, VirtAddr.toNat_alignDown_page, hk]
  have hmod : v.asU64.toNat % (4096 * k) =
      v.asU64.toNat / 4096 * 4096 % (4096 * k) + v.asU64.toNat % 4096 := by
    rw [Nat.mul_comm (v.asU64.toNat / 4096), Nat.mul_mod_mul_left, Nat.mod_mul]
    omega
  omega

/-- What is read from a page is what the frame holds. -/
theorem PageOn.readByte (h : PageOn A U ms.p4Phys (v.alignDown 4096) flags frame s)
    (htree : Tree A U ms.p4Phys s) (hU : U v.p4Index = true) (hoff : s.physOffset.isSome) :
    ms.readByte s v = some ((s.tables frame).byte (v.asU64.toNat % 4096)) := by
  obtain ⟨l, e, hleaf, hframe, -⟩ := h.leaf
  have htrans : OffsetMapper.translate s.tables ms.p4Phys v = some (l.apply v e) :=
    translate_of_pageLeaf ((pageLeaf_priv htree hU l).symm.trans
      ((pageLeaf_alignDown _ l v).symm.trans hleaf))
  have hnat := toNat_apply_alignDown l v e
  rw [hframe] at hnat
  have haligned := h.spare.1.1
  have hbase : (l.apply v e).frameBase = frame := frameBase_eq h.spare.1 (by omega)
  rw [MemorySet.readByte, MemorySet.translate_eq_mapper hoff, htrans, Option.map_some,
    hbase, hnat]
  congr 2
  omega

/-! ## Steps -/

/-- Pages stay where they are, and so does what they hold. -/
structure Grows (A : FrameAllocator σ) (U : Fin 512 → Bool) (p4 : PhysAddr) (s s' : MmState σ) :
    Prop where
  tree : Tree A U p4 s'
  spare : spareFrames A U p4 s ⊆ spareFrames A U p4 s'
  leaf : ∀ q i e, leafOf (s.priv U p4).tables p4 q i = some e →
    leafOf (s'.priv U p4).tables p4 q i = some e
  rows : ∀ f ∈ spareFrames A U p4 s, s'.tables f = s.tables f
  offset : s'.physOffset = s.physOffset

theorem Grows.refl (h : Tree A U p4 s) : Grows A U p4 s s :=
  ⟨h, subset_rfl, fun _ _ _ => id, fun _ _ => rfl, rfl⟩

theorem Grows.trans (h : Grows A U p4 s s₁) (h' : Grows A U p4 s₁ s₂) : Grows A U p4 s s₂ :=
  ⟨h'.tree, h.spare.trans h'.spare, fun q i e he => h'.leaf q i e (h.leaf q i e he),
    fun f hf => (h'.rows f (h.spare hf)).trans (h.rows f hf), h'.offset.trans h.offset⟩

theorem Grows.pageOn (h : Grows A U p4 s s') (hon : PageOn A U p4 page flags frame s) :
    PageOn A U p4 page flags frame s' := by
  obtain ⟨l, e, hleaf, hrest⟩ := hon.leaf
  exact ⟨h.spare hon.spare, l, e, h.leaf _ _ _ hleaf, hrest⟩

theorem Tree.grows_alloc (h : Tree A U p4 s) (halloc : A.allocateFrame s.alloc = (some frame, a)) :
    Grows A U p4 s { s with alloc := a } ∧ frame ∉ spareFrames A U p4 s ∧
      frame ∈ spareFrames A U p4 { s with alloc := a } := by
  obtain ⟨htree, hspare⟩ := h.alloc halloc
  refine ⟨⟨htree, ?_, fun _ _ _ => id, fun _ _ => rfl, rfl⟩,
    fun hmem => (A.allocate_some halloc).2.2.1 hmem.2.1, ?_⟩
  · rw [hspare]
    exact Set.subset_insert _ _
  · rw [hspare]
    exact Set.mem_insert _ _

/-- A page is mapped on a frame that was taken. -/
theorem Tree.grows_map (h : Tree A U p4 s) (hU : U page.p4Index = true)
    (hpage : page.asU64.toNat % 4096 = 0) (hframe : frame ∈ spareFrames A U p4 s)
    (hrun : mapPageInner A p4 page frame flags s = (.ok (), s')) :
    Grows A U p4 s s' ∧ PageOn A U p4 page flags frame s' := by
  obtain ⟨hspare, hrows⟩ := h.spareFrames_map hU hframe.1.2 hrun (by simp)
  obtain ⟨-, ⟨-, haligned, hadd⟩ | ⟨⟨_, hno⟩, -⟩⟩ := h.map hU hframe.1.2 hrun
  rotate_left
  · cases hno
  refine ⟨⟨hadd.inv, hspare.ge, fun q i e he => (hadd.leaves q i).trans ?_, hrows, hadd.offset⟩,
    hspare ▸ hframe, selectLevel page frame flags, _, (hadd.leaves _ _).trans (if_pos ⟨rfl, rfl⟩), ?_, ?_⟩
  · -- The new leaf is where there was none.
    refine (if_neg ?_).trans he
    rintro ⟨rfl, rfl⟩
    cases hadd.vacant.symm.trans he
  · ext1
    apply UInt64.toNat_inj.mp
    rw [toNat_apply, PageTableEntry.addr_pack hframe.1]
    rcases haligned with hsmall | hmod
    · rw [hsmall]
      exact congrArg (frame.asU64.toNat + ·) hpage
    · rw [hmod]
      rfl
  · have hself := contains_self flags
    rw [PageTableEntry.flags_pack hframe.1, PageLevel.leafFlags]
    split
    · exact contains_or_left hself
    · exact contains_or_left (contains_or_left hself)

/-- A frame that no page was on is filled. -/
theorem Grows.fill (h : Grows A U p4 s s₁) (hnew : frame ∉ spareFrames A U p4 s)
    (hframe : frame ∈ spareFrames A U p4 s₁) (row : PageTable) :
    Grows A U p4 s { s₁ with tables := Function.update s₁.tables frame row } := by
  obtain ⟨htree, hspare, hleaves⟩ := h.tree.fill hframe row
  refine ⟨htree, h.spare.trans hspare.ge, fun q i e he => ?_, fun f hf => ?_, h.offset⟩
  · rw [hleaves]
    exact h.leaf q i e he
  · rw [← h.rows f hf]
    refine Function.update_of_ne ?_ _ _
    rintro rfl
    exact hnew hf

theorem PageOn.fill (htree : Tree A U p4 s) (hf : f ∈ spareFrames A U p4 s) (row : PageTable)
    (h : PageOn A U p4 page flags frame s) :
    PageOn A U p4 page flags frame { s with tables := Function.update s.tables f row } := by
  obtain ⟨-, hspare, hleaves⟩ := htree.fill hf row
  obtain ⟨l, e, hleaf, hrest⟩ := h.leaf
  exact ⟨hspare ▸ h.spare, l, e, (hleaves _ _).trans hleaf, hrest⟩

end Pages

end BoruixKernel
