import BoruixKernel.Mm.Recount

/-!
# The tables of an address space

What the operations on an address space rely on, whatever the counters are: the tables under
the entries `U` of its P4 form a trie of frames in use (`Tree`).  The frames in use that are
not among these tables are the spare ones: the frames of user pages are.  The mapper takes and
gives back tables only, so that its calls leave the spare frames as they are
(`Tree.spareFrames_map`), and also what they hold.
-/

namespace BoruixKernel

open PointerTrie

section Tree

variable {σ : Type} {A : FrameAllocator σ} {U : Fin 512 → Bool} {p4 : PhysAddr} {s s' : MmState σ}
  {f : PhysAddr}

abbrev MmState.uncounted (s : MmState σ) : MmState σ := s.recount fun _ => none

/-- The tables under the entries `U` of the P4 are a trie, and all of them are in use. -/
abbrev Tree (A : FrameAllocator σ) (U : Fin 512 → Bool) (p4 : PhysAddr) (s : MmState σ) : Prop :=
  MapperInv A p4 (s.uncounted.priv U p4)

/-- The frames in use that are not among the tables under the entries `U`. -/
def spareFrames (A : FrameAllocator σ) (U : Fin 512 → Bool) (p4 : PhysAddr) (s : MmState σ) :
    Set PhysAddr :=
  {f | Outside A p4 (s.priv U p4) f}

theorem Tree.of_tables (hroot : p4.Frame) (hsep : Separate tableFormat (s.priv U p4).tables p4)
    (hheld : ∀ q t, tableOf (s.priv U p4).tables p4 q = some t → t ∈ A.held s.alloc) :
    Tree A U p4 s :=
  ⟨hroot, hsep, hheld, fun _ hc => nomatch hc⟩

theorem MapperInv.tree (h : MapperInv A p4 (s.priv U p4)) : Tree A U p4 s :=
  .of_tables h.root h.separate h.held

abbrev everyEntry : Fin 512 → Bool := fun _ => true

theorem mem_spareFrames_every : f ∈ spareFrames A everyEntry p4 s ↔ Outside A p4 s f := by
  change Outside A p4 (s.priv everyEntry p4) f ↔ _
  rw [priv_univ]

theorem Tree.separate_every (h : Tree A everyEntry p4 s) : Separate tableFormat s.tables p4 := by
  have hsep := h.separate
  rwa [priv_univ] at hsep

/-! ## Frames taken, filled and given back -/

theorem Tree.alloc (h : Tree A U p4 s) (halloc : A.allocateFrame s.alloc = (some c, a)) :
    Tree A U p4 { s with alloc := a } ∧
      spareFrames A U p4 { s with alloc := a } = insert c (spareFrames A U p4 s) := by
  obtain ⟨hframe, -, hnew, hheld⟩ := A.allocate_some halloc
  refine ⟨.of_tables h.root h.separate fun q t ht => ?_, Set.ext fun f => ?_⟩
  · exact hheld ▸ Set.mem_insert_of_mem _ (h.held q t ht)
  · change f.Frame ∧ f ∈ A.held a ∧ _ ↔ f = c ∨ f.Frame ∧ f ∈ A.held s.alloc ∧ _
    rw [hheld, Set.mem_insert_iff]
    constructor
    · rintro ⟨hf, rfl | hmem, hno⟩
      · exact .inl rfl
      · exact .inr ⟨hf, hmem, hno⟩
    · rintro (rfl | ⟨hf, hmem, hno⟩)
      · exact ⟨hframe, .inl rfl, fun q hq => hnew (h.held q f hq)⟩
      · exact ⟨hf, .inr hmem, hno⟩

theorem Tree.alloc_none (h : Tree A U p4 s) (halloc : A.allocateFrame s.alloc = (none, a)) :
    Tree A U p4 { s with alloc := a } ∧
      spareFrames A U p4 { s with alloc := a } = spareFrames A U p4 s := by
  have hheld := A.allocate_none halloc
  refine ⟨.of_tables h.root h.separate fun q t ht => hheld ▸ h.held q t ht, Set.ext fun f => ?_⟩
  change f.Frame ∧ f ∈ A.held a ∧ _ ↔ f.Frame ∧ f ∈ A.held s.alloc ∧ _
  rw [hheld]
  exact Iff.rfl

/-- A spare frame is filled: no table and no leaf changes. -/
theorem Tree.fill (h : Tree A U p4 s) (hp : p ∈ spareFrames A U p4 s) (row : PageTable) :
    let s' := { s with tables := Function.update s.tables p row }
    Tree A U p4 s' ∧ spareFrames A U p4 s' = spareFrames A U p4 s ∧
      ∀ q i, leafOf (s'.priv U p4).tables p4 q i = leafOf (s.priv U p4).tables p4 q i := by
  intro s'
  have hrow : ∀ q t, tableOf (s.priv U p4).tables p4 q = some t →
      (s'.priv U p4).tables t = (s.priv U p4).tables t := by
    intro q t ht
    refine priv_row (Function.update_of_ne ?_ _ _)
    rintro rfl
    exact hp.2.2 q ht
  have htab := tableAt_same tableFormat hrow
  refine ⟨.of_tables h.root (h.separate.of_tableAt_imp fun q t ht => (htab q).symm.trans ht)
    fun q t ht => h.held q t ((htab q).symm.trans ht), Set.ext fun f => ?_,
    leafAt_same tableFormat hrow⟩
  change _ ∧ _ ∧ (∀ q, tableAt _ _ _ q ≠ _) ↔ _ ∧ _ ∧ ∀ q, tableAt _ _ _ q ≠ _
  simp only [htab]
  rfl

end Tree

/-! ## Mapping -/

section Map

variable {A : FrameAllocator σ} {s s' : MmState σ} {frame : PhysAddr}

/-- Getting a table makes no frame spare that was not. -/
theorem getNextTableByIndex_outside (h : MapperInv A p4 s) (hq : tableOf s.tables p4 q = some t)
    (hlen : q.length < 3) {r : Except MapFault PhysAddr}
    (hrun : getNextTableByIndex A t i s = (r, s')) (hr : ∀ msg, r ≠ .error (.panic msg))
    (hf : Outside A p4 s' f) : Outside A p4 s f := by
  obtain ⟨hgrow, htab⟩ := getNextTableByIndex_spec h hq hlen hrun
  refine ⟨hf.1, ?_, fun q' hq' => hf.2.2 q' (hgrow.kept q' f hq')⟩
  unfold getNextTableByIndex at hrun
  dsimp only at hrun
  split at hrun
  · split at hrun <;> cases hrun <;> exact hf.2.1
  split at hrun
  next a halloc =>
    cases hrun
    exact A.allocate_none halloc ▸ hf.2.1
  next phys a halloc =>
    obtain ⟨hframe, -, -, hheld⟩ := A.allocate_some halloc
    split at hrun
    · cases hrun
      exact absurd rfl (hr _)
    · simp only [MmState.setAddr, hframe.isAligned, if_true, MapResult.andThen] at hrun
      cases hrun
      -- The new frame is the new table.
      have hmem : f ∈ insert phys (A.held s.alloc) := hheld ▸ hf.2.1
      rcases Set.mem_insert_iff.mp hmem with rfl | hmem
      · exact absurd (htab f rfl) (hf.2.2 _)
      · exact hmem

/-- `map_page` takes frames for tables only. -/
theorem MapperInv.mapPageInner_outside (h : MapperInv A p4 s) (hlt : frame.asU64.toNat < 2 ^ 52)
    (hrun : mapPageInner A p4 page frame flags s = (r, s')) (hr : ∀ msg, r ≠ .error (.panic msg))
    (f : PhysAddr) : Outside A p4 s' f ↔ Outside A p4 s f := by
  constructor
  · refine mapPageInner_steps (R := fun s s' => Outside A p4 s' f → Outside A p4 s f)
      (fun _ _ _ h1 h2 hf => h1 (h2 hf)) ?_ ?_ (fun _ _ => id) h hlt hrun hr
    · intro s s' q t i r hinv hq hlen hnext hr
      exact getNextTableByIndex_outside hinv hq hlen hnext hr
    · intro s q t i e hinv hq hold hleaf hf
      refine ⟨hf.1, hf.2.1, fun q' hq' => hf.2.2 q' ?_⟩
      exact (tableAt_setLeaf hinv.separate hq (child_eq_none hold _) (child_of_leaf hleaf) q').trans
        hq'
  · intro hf
    rcases mapPageInner_spec h hlt hrun with ⟨-, -, hadd, -⟩ | ⟨-, hgrow⟩
    · exact hadd.toLocalStep.still hf
    · exact hgrow.toLocalStep.still hf

section

variable (h : Tree A U p4 s) (hU : U page.p4Index = true) (hlt : frame.asU64.toNat < 2 ^ 52)
  (hrun : mapPageInner A p4 page frame flags s = (r, s'))

include h hU hlt hrun

/-- What `map_page` does to the tables under the entries `U`, whatever the counters are. -/
theorem Tree.map : let l := selectLevel page frame flags
    SpaceStep A U p4 s.uncounted s'.uncounted ∧
      ((r = .ok () ∧ (l = .small ∨ page.asU64.toNat % l.size = 0) ∧
        LeafAdded A p4 (l.path page) (l.index page) frame (l.leafFlags flags)
          (s.uncounted.priv U p4) (s'.uncounted.priv U p4)) ∨
      (∃ e, r = .error e) ∧
        GrowStep A p4 (s.uncounted.priv U p4) (s'.uncounted.priv U p4)) := by
  intro l
  have hrun' : mapPageInner A p4 page frame flags s.uncounted = (r, s'.uncounted) := by
    rw [mapPageInner_recount countsNaturally_none, hrun]
    rfl
  obtain ⟨hstep, hcases⟩ := mapPageInner_space h hU hlt hrun'
  exact ⟨hstep, hcases.imp_left fun ⟨hr, hal, hadd, _⟩ => ⟨hr, hal, hadd⟩⟩

/-- `map_page` leaves the spare frames as they are. -/
theorem Tree.spareFrames_map (hr : ∀ msg, r ≠ .error (.panic msg)) :
    spareFrames A U p4 s' = spareFrames A U p4 s ∧
      ∀ f ∈ spareFrames A U p4 s, s'.tables f = s.tables f := by
  have hrun' : mapPageInner A p4 page frame flags (s.uncounted.priv U p4) =
      (r, s'.uncounted.priv U p4) := by
    rw [mapPageInner_shade h hU, mapPageInner_recount countsNaturally_none, hrun]
    rfl
  refine ⟨Set.ext fun f => h.mapPageInner_outside hlt hrun' hr f, fun f hf => ?_⟩
  exact ((h.map hU hlt hrun).1.rest hf).1

/-- `map_page` gives no frame back. -/
theorem Tree.held_map (hf : f.Frame) (hheld : f ∈ A.held s.alloc) : f ∈ A.held s'.alloc := by
  rcases (h.map hU hlt hrun).2 with ⟨-, -, hadd⟩ | ⟨-, hgrow⟩
  · exact hadd.toLocalStep.held_mono hadd.inv hadd.kept hf hheld
  · exact hgrow.toLocalStep.held_mono hgrow.inv hgrow.kept hf hheld

end

end Map

/-! ## Unmapping -/

section Unmap

variable {σ : Type} {A : FrameAllocator σ} {p4 : PhysAddr} {s s' : MmState σ} {q : List (Fin 512)}
  {t : PhysAddr}

/-- A step that cuts tables off and gives frames back that were tables. -/
structure Pruned (A : FrameAllocator σ) (p4 : PhysAddr) (s s' : MmState σ) : Prop where
  separate : Separate tableFormat s'.tables p4
  tables : ∀ q t, tableOf s'.tables p4 q = some t → tableOf s.tables p4 q = some t
  held : (∀ q t, tableOf s.tables p4 q = some t → t ∈ A.held s.alloc) →
    ∀ q t, tableOf s'.tables p4 q = some t → t ∈ A.held s'.alloc
  spare : ∀ f, Outside A p4 s f → Outside A p4 s' f
  offset : s'.physOffset = s.physOffset

theorem Pruned.refl (h : Separate tableFormat s.tables p4) : Pruned A p4 s s :=
  ⟨h, fun _ _ => id, id, fun _ => id, rfl⟩

theorem Pruned.trans (h1 : Pruned A p4 s1 s2) (h2 : Pruned A p4 s2 s3) : Pruned A p4 s1 s3 :=
  ⟨h2.separate, fun q t ht => h1.tables q t (h2.tables q t ht), fun h => h2.held (h1.held h),
    fun f hf => h2.spare f (h1.spare f hf), h2.offset.trans h1.offset⟩

theorem Pruned.with_rmap (h : Pruned A p4 s s') (m : Rmap) : Pruned A p4 s { s' with rmap := m } :=
  ⟨h.separate, h.tables, h.held, h.spare, h.offset⟩

section

variable (hs : Separate tableFormat s.tables p4) (hq : tableOf s.tables p4 q = some t)

include hs hq

theorem Pruned.clear : Pruned A p4 s ((s.setEntry t i .new).decCount t) ∧
      ∀ q', tableOf ((s.setEntry t i .new).decCount t).tables p4 q' =
        if q ++ [i] <+: q' then none else tableOf s.tables p4 q' := by
  have htab := tableAt_cut (i := i) hs hq (child_eq_none PageTableEntry.new_present _)
  have hsub : ∀ q' u, tableOf ((s.setEntry t i .new).decCount t).tables p4 q' = some u →
      tableOf s.tables p4 q' = some u := by
    intro q' u hu
    replace hu := (htab q').symm.trans hu
    split at hu
    · cases hu
    · exact hu
  exact ⟨⟨hs.of_tableAt_imp hsub, hsub, fun hheld q' u hu => hheld q' u (hsub q' u hu),
    fun f hf => ⟨hf.1, hf.2.1, fun q' hq' => hf.2.2 q' (hsub q' f hq')⟩, rfl⟩, htab⟩

/-- The table under a cleared entry is given back. -/
theorem Pruned.discard (hc : tableOf s.tables p4 (q ++ [i]) = some c) :
    Pruned A p4 s ((({ s with alloc := A.deallocateFrame s.alloc c } : MmState σ).setEntry t i
      .new).decCount t) := by
  obtain ⟨hclear, htab⟩ := Pruned.clear (A := A) (i := i) hs hq
  have hheld := A.deallocate s.alloc c
  refine ⟨hclear.separate, hclear.tables, fun hold q' u hu => ?_, fun f hf => ?_, rfl⟩
  · change u ∈ A.held (A.deallocateFrame s.alloc c)
    rw [hheld]
    refine ⟨hold q' u (hclear.tables q' u hu), ?_⟩
    rintro rfl
    -- The discarded table is under the cleared entry.
    have hpath := hs _ _ _ (hclear.tables q' u hu) hc
    replace hu := (htab q').symm.trans hu
    rw [hpath, if_pos (List.prefix_refl _)] at hu
    cases hu
  · refine ⟨hf.1, ?_, (hclear.spare f hf).2.2⟩
    change f ∈ A.held (A.deallocateFrame s.alloc c)
    rw [hheld]
    refine ⟨hf.2.1, ?_⟩
    rintro rfl
    exact hf.2.2 _ hc

/-- Reclaiming a table gives back tables only, whatever the counters say. -/
theorem Pruned.reclaimTable (hc : tableOf s.tables p4 (q ++ [i]) = some c)
    (hnext : ∀ s1, Separate tableFormat s1.tables p4 →
      (∀ q', ¬ q ++ [i] <+: q' → tableOf s1.tables p4 q' = tableOf s.tables p4 q') →
      Pruned A p4 s1 (next s1)) : Pruned A p4 s (reclaimTable A t i c next s) := by
  unfold BoruixKernel.reclaimTable
  split
  next =>
    have hchild : tableFormat.child q.length (s.tables t i) = some c := by
      rwa [tableOf_snoc, hq, Option.bind_some] at hc
    have hdiscard := Pruned.discard (A := A) hs hq hc
    simp only [(of_child hchild).2]
    refine hdiscard.trans (hnext _ hdiscard.separate fun q' hq' => ?_)
    exact (tableAt_cut hs hq (child_eq_none PageTableEntry.new_present _) q').trans (if_neg hq')
  next => exact .refl hs

end

/-- `unmap_page` gives back tables only, whatever the counters say. -/
theorem unmapPageInner_pruned (hs : Separate tableFormat s.tables p4)
    (hrun : unmapPageInner A p4 page s = (r, s')) :
    Pruned A p4 s s' := by
  have h3 : ∀ p3 s1, Separate tableFormat s1.tables p4 →
      tableOf s1.tables p4 [page.p4Index] = some p3 →
      Pruned A p4 s1 (reclaimTable A p4 page.p4Index p3 id s1) := fun p3 s1 hs1 hq₁ =>
    .reclaimTable hs1 (q := []) rfl hq₁ fun s2 hs2 _ => .refl hs2
  have h2 : ∀ p3 p2 s1, Separate tableFormat s1.tables p4 →
      tableOf s1.tables p4 [page.p4Index] = some p3 →
      tableOf s1.tables p4 [page.p4Index, page.p3Index] = some p2 →
      Pruned A p4 s1 (reclaimTable A p3 page.p3Index p2
        (reclaimTable A p4 page.p4Index p3 id) s1) := fun p3 p2 s1 hs1 hq₁ hq1' =>
    .reclaimTable hs1 hq₁ hq1' fun s2 hs2 hkeep => h3 p3 s2 hs2 ((hkeep _ (by simp)).trans hq₁)
  cases unmapStep_of_run hrun with
  | missing => exact .refl hs
  | giant hq3 hleaf =>
    obtain ⟨hclear, htab⟩ := Pruned.clear (A := A) (i := page.p3Index) hs hq3
    exact hclear.trans (h3 _ _ hclear.separate ((htab _).trans ((if_neg (by simp)).trans hq3)))
  | large hq3 hq2 hleaf =>
    obtain ⟨hclear, htab⟩ := Pruned.clear (A := A) (i := page.p2Index) hs hq2
    exact hclear.trans (h2 _ _ _ hclear.separate ((htab _).trans ((if_neg (by simp)).trans hq3))
      ((htab _).trans ((if_neg (by simp)).trans hq2)))
  | @small p3 p2 p1 hq3 hq2 hq1 hleaf =>
    obtain ⟨hclear, htab⟩ := Pruned.clear (A := A) (i := page.p1Index) hs hq1
    replace hclear := hclear.with_rmap
      (PageLevel.small.forget s.rmap (s.tables p1 page.p1Index) p4 page)
    refine hclear.trans (.reclaimTable hclear.separate
      ((htab _).trans ((if_neg (by simp)).trans hq2))
      ((htab _).trans ((if_neg (by simp)).trans hq1)) fun s1 hs1 hkeep => ?_)
    exact h2 p3 p2 s1 hs1
      ((hkeep _ (by simp)).trans ((htab _).trans ((if_neg (by simp)).trans hq3)))
      ((hkeep _ (by simp)).trans ((htab _).trans ((if_neg (by simp)).trans hq2)))

end Unmap

end BoruixKernel
