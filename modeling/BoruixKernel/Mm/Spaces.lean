import BoruixKernel.Mm.MapperRefinement

/-!
# Several address spaces

Mapping and unmapping under one of several P4s.  The entries of a P4 are divided: those
in `U` belong to the address space alone, and what is under the others may be shared with
other address spaces, as the kernel half is.

`MmState.shade` replaces the entries outside `U`.  A call for a page under `U` neither
reads nor writes them (`mapPageInner_shade`, `unmapPageInner_shade`), so that with these
entries blanked out (`MmState.priv`) the results about a single trie apply, and with
their old values put in it follows that they are kept.  `SpacesInv` says that the private
parts have no table in common, and `SpacesInv.step` that a call for one address space
leaves the others as they are.
-/

namespace BoruixKernel

open PointerTrie Function List Option

/-! ## Shading the shared entries -/

section Shade

variable {σ : Type} {A : FrameAllocator σ} {U : Fin 512 → Bool} {p4 t : PhysAddr} {row : PageTable}
  {s s' : MmState σ} {i : Fin 512}

/-- The state with the entries of a P4 outside `U` replaced. -/
def MmState.shade (U : Fin 512 → Bool) (p4 : PhysAddr) (row : PageTable) (s : MmState σ) :
    MmState σ :=
  { s with tables := update s.tables p4 fun i => if U i then s.tables p4 i else row i }

/-- The private part of an address space. -/
abbrev MmState.priv (U : Fin 512 → Bool) (p4 : PhysAddr) (s : MmState σ) : MmState σ :=
  s.shade U p4 .zero

@[simp] theorem shade_alloc : (s.shade U p4 row).alloc = s.alloc := rfl

theorem shade_tables_of_ne (h : t ≠ p4) : (s.shade U p4 row).tables t = s.tables t :=
  update_of_ne h _ _

/-- The entries in `U`, and those of other tables, stay. -/
theorem shade_entry (h : t = p4 → U i = true) : (s.shade U p4 row).tables t i = s.tables t i := by
  by_cases ht : t = p4
  · subst ht
    simp [MmState.shade, h rfl]
  · rw [shade_tables_of_ne ht]

theorem shade_entry_of_not (h : U i = false) : (s.shade U p4 row).tables p4 i = row i := by
  simp [MmState.shade, h]

theorem shade_setEntry (h : t = p4 → U i = true) (e : PageTableEntry) :
    (s.setEntry t i e).shade U p4 row = (s.shade U p4 row).setEntry t i e := by
  simp only [MmState.shade, MmState.setEntry, MmState.mk.injEq, true_and, and_true]
  funext u j
  by_cases hu : u = p4
  · subst hu
    rw [update_self, set_apply, set_apply, update_self]
    split
    · rfl
    · next hU =>
      rw [if_neg]
      rintro ⟨rfl, rfl⟩
      exact hU (h rfl)
  · rw [update_of_ne hu, set_apply, set_apply, update_of_ne hu]

theorem shade_zeroFrame (h : f ≠ p4) :
    (s.zeroFrame f).shade U p4 row = (s.shade U p4 row).zeroFrame f := by
  simp only [MmState.shade, MmState.zeroFrame, MmState.mk.injEq, true_and, and_true]
  rw [update_of_ne h.symm, update_comm h.symm]

/-- States are the same if they agree in the shaded entries and in the others. -/
theorem eq_of_shade (h : s'.shade U p4 row = s.shade U p4 row)
    (hrow : ∀ i, U i = false → s'.tables p4 i = s.tables p4 i) : s' = s := by
  cases s with
  | mk offset tables counts rmap alloc =>
    cases s' with
    | mk offset' tables' counts' rmap' alloc' =>
      simp only [MmState.shade, MmState.mk.injEq] at h hrow ⊢
      obtain ⟨hoffset, htables, hcounts, hrmap, halloc⟩ := h
      refine ⟨hoffset, ?_, hcounts, hrmap, halloc⟩
      funext u i
      have hentry := congrFun (congrFun htables u) i
      by_cases hu : u = p4
      · subst hu
        rw [update_self, update_self] at hentry
        cases hU : U i with
        | true => simpa [hU] using hentry
        | false => exact hrow i hU
      · rwa [update_of_ne hu, update_of_ne hu] at hentry

/-- A result with its state shaded. -/
def MapResult.shade {α : Type} (U : Fin 512 → Bool) (p4 : PhysAddr) (row : PageTable)
    (r : MapResult σ α) : MapResult σ α := (r.1, r.2.shade U p4 row)

theorem MapResult.andThen_shade {α β : Type} {r : MapResult σ α} {f : α → MmState σ → MapResult σ β}
    (hf : ∀ a s', r = (.ok a, s') → f a (s'.shade U p4 row) = (f a s').shade U p4 row) :
    (r.shade U p4 row).andThen f = (r.andThen f).shade U p4 row := by
  rcases r with ⟨_ | a, s'⟩
  · rfl
  · exact hf a s' rfl

theorem setAddr_shade (h : t = p4 → U i = true) (addr : PhysAddr) (flags : PageTableFlags) :
    (s.shade U p4 row).setAddr t i addr flags = (s.setAddr t i addr flags).shade U p4 row := by
  unfold MmState.setAddr
  split
  · rw [← shade_setEntry h]
    rfl
  · rfl

theorem getNextTableByIndex_shade (h : t = p4 → U i = true) (hp4 : p4 ∈ A.held s.alloc) :
    getNextTableByIndex A t i (s.shade U p4 row) =
      (getNextTableByIndex A t i s).shade U p4 row := by
  unfold getNextTableByIndex
  simp only [shade_entry h]
  split
  · split <;> rfl
  · rw [shade_alloc]
    rcases halloc : A.allocateFrame s.alloc with ⟨_ | phys, a⟩
    · rfl
    · have hne : phys ≠ p4 := by
        rintro rfl
        exact (A.allocate_some halloc).2.2.1 hp4
      have hzero : ({ s.shade U p4 row with alloc := a } : MmState σ).zeroFrame phys =
          (({ s with alloc := a } : MmState σ).zeroFrame phys).shade U p4 row :=
        (shade_zeroFrame (s := { s with alloc := a }) hne).symm
      simp only []
      split
      · rfl
      · rw [hzero, setAddr_shade h]
        exact MapResult.andThen_shade fun _ _ _ => rfl

/-- Only the path without indices leads to the P4. -/
theorem MapperInv.table_ne (h : MapperInv A p4 s) (hq : tableOf s.tables p4 q = some t)
    (hne : q ≠ []) : t ≠ p4 := by
  rintro rfl
  exact hne (h.separate q [] t hq rfl)

section

variable (h : MapperInv A p4 (s.priv U p4))

include h

theorem MapperInv.root_held : p4 ∈ A.held s.alloc := h.held [] p4 rfl

/-- Getting the next table under the private part. -/
theorem getNextTableByIndex_priv (hq : tableOf (s.priv U p4).tables p4 q = some t) (hlen : q.length < 3)
    (hU : q = [] → U i = true) {c : PhysAddr} (hrun : getNextTableByIndex A t i s = (.ok c, s')) :
    MapperInv A p4 (s'.priv U p4) ∧ tableOf (s'.priv U p4).tables p4 (q ++ [i]) = some c := by
  have hroot : t = p4 → U i = true := fun ht => hU (h.separate q [] t hq (ht ▸ rfl))
  have hshade : getNextTableByIndex A t i (s.priv U p4) = (.ok c, s'.priv U p4) := by
    rw [getNextTableByIndex_shade hroot h.root_held, hrun]
    rfl
  obtain ⟨hstep, htab⟩ := getNextTableByIndex_spec h hq hlen hshade
  exact ⟨hstep.inv, htab c rfl⟩

/-- Getting tables under the private part does not look at the other entries. -/
theorem getTables_shade {p : List (Fin 512)} (hq : tableOf (s.priv U p4).tables p4 q = some t)
    (hlen : q.length + p.length ≤ 3) (hU : ∀ i ∈ (q ++ p).head?, U i = true) (row : PageTable) :
    getTables A p t (s.shade U p4 row) = (getTables A p t s).shade U p4 row := by
  induction p generalizing q t s with
  | nil => rfl
  | cons i p ih =>
    rw [length_cons] at hlen
    have hi : q = [] → U i = true := by
      rintro rfl
      exact hU i rfl
    have hroot : t = p4 → U i = true := fun ht => hi (h.separate q [] t hq (ht ▸ rfl))
    rw [getTables, getTables, getNextTableByIndex_shade hroot h.root_held]
    refine MapResult.andThen_shade fun c s1 hrun => ?_
    obtain ⟨h1, htab⟩ := getNextTableByIndex_priv h hq (by omega) hi hrun
    refine ih h1 htab ?_ ?_
    · rw [length_append, length_singleton]
      omega
    · rwa [append_assoc]

/-- Mapping a page under the private part does not look at the other entries. -/
theorem mapPageInner_shade {page : VirtAddr} (hU : U page.p4Index = true) (row : PageTable)
    (frame : PhysAddr) (flags : PageTableFlags) :
    mapPageInner A p4 page frame flags (s.shade U p4 row) =
      (mapPageInner A p4 page frame flags s).shade U p4 row := by
  rw [mapPageInner_eq, mapPageInner_eq]
  generalize selectLevel page frame flags = l
  have hhead : ∀ i ∈ ([] ++ l.path page).head?, U i = true := by
    cases l <;> rintro _ ⟨⟩ <;> exact hU
  have hlen : ([] : List (Fin 512)).length + (l.path page).length ≤ 3 := by
    simpa using l.length_path page
  rw [getTables_shade h rfl hlen hhead]
  refine MapResult.andThen_shade fun t s1 hrun => ?_
  -- The table of the page is not the P4.
  have hpriv : getTables A (l.path page) p4 (s.priv U p4) = (.ok t, s1.priv U p4) := by
    rw [MmState.priv, getTables_shade h rfl hlen hhead, hrun]
    rfl
  obtain ⟨hgrow, htab⟩ := getTables_spec h (q := []) rfl hlen hpriv
  have hne : t ≠ p4 := hgrow.inv.table_ne (htab t rfl) (by cases l <;> simp [PageLevel.path])
  have hoff : ∀ i, t = p4 → U i = true := fun _ heq => absurd heq hne
  unfold storeLeaf
  rw [shade_entry (hoff _), setAddr_shade (hoff _)]
  split
  · rfl
  split
  · rfl
  exact MapResult.andThen_shade fun _ _ _ => rfl

end

theorem reclaimTable_shade (ht : t = p4 → U i = true) (hc : c ≠ p4) {next : MmState σ → MmState σ}
    (hnext : ∀ s1, next (s1.shade U p4 row) = (next s1).shade U p4 row) :
    reclaimTable A t i c next (s.shade U p4 row) =
      (reclaimTable A t i c next s).shade U p4 row := by
  have hempty : (s.shade U p4 row).tableEmpty c = s.tableEmpty c := by
    unfold MmState.tableEmpty
    rw [shade_tables_of_ne hc]
    rfl
  unfold reclaimTable
  rw [hempty]
  split
  · simp only [shade_entry ht]
    rw [← hnext]
    refine congrArg next ?_
    exact congrArg (MmState.decCount · t) (shade_setEntry
      (s := { s with alloc := A.deallocateFrame s.alloc (s.tables t i).addr }) ht .new).symm
  · rfl

section

variable (h : MapperInv A p4 (s.priv U p4))

include h

/-- Unmapping a page under the private part does not look at the other entries. -/
theorem unmapPageInner_shade (hU : U page.p4Index = true) (row : PageTable) :
    unmapPageInner A p4 page (s.shade U p4 row) =
      (unmapPageInner A p4 page s).shade U p4 row := by
  unfold unmapPageInner
  -- Clearing an entry of a table below the P4.
  have hclear : ∀ {u : PhysAddr} (i : Fin 512), u ≠ p4 →
      ((s.shade U p4 row).setEntry u i .new).decCount u =
        ((s.setEntry u i .new).decCount u).shade U p4 row := fun i hu =>
    congrArg (MmState.decCount · _) (shade_setEntry (fun heq => absurd heq hu) .new).symm
  have hentry : (s.priv U p4).tables p4 page.p4Index = s.tables p4 page.p4Index :=
    shade_entry fun _ => hU
  simp only [shade_entry (t := p4) (i := page.p4Index) (fun _ => hU)]
  split
  · rfl
  next h4 =>
  have hq3 : tableOf (s.priv U p4).tables p4 [page.p4Index] =
      some (s.tables p4 page.p4Index).addr := by
    simp only [Bool.not_eq_true, Bool.not_eq_false'] at h4
    simp [tableAt, descend, tableFormat, hentry, h4]
  generalize (s.tables p4 page.p4Index).addr = p3 at hq3 ⊢
  have hne3 := h.table_ne hq3 (by simp)
  have hreclaim3 : ∀ s1 : MmState σ, reclaimTable A p4 page.p4Index p3 id (s1.shade U p4 row) =
      (reclaimTable A p4 page.p4Index p3 id s1).shade U p4 row := fun s1 =>
    reclaimTable_shade (fun _ => hU) hne3 fun _ => rfl
  simp only [shade_tables_of_ne hne3, hclear _ hne3, hreclaim3]
  split
  · rfl
  next h3 =>
  split
  · rfl
  next hh3 =>
  have hrow3 : (s.priv U p4).tables p3 = s.tables p3 := shade_tables_of_ne hne3
  have hq2 : tableOf (s.priv U p4).tables p4 [page.p4Index, page.p3Index] =
      some (s.tables p3 page.p3Index).addr :=
    (tableOf_snoc _ _ [page.p4Index] _).trans (by
      rw [hq3, bind_some, hrow3]
      exact child_of_present (by simpa using h3) (by simpa using hh3) (by simp))
  generalize (s.tables p3 page.p3Index).addr = p2 at hq2 ⊢
  have hne2 := h.table_ne hq2 (by simp)
  have hreclaim2 : ∀ s1 : MmState σ, reclaimTable A p3 page.p3Index p2
      (reclaimTable A p4 page.p4Index p3 id) (s1.shade U p4 row) =
      (reclaimTable A p3 page.p3Index p2 (reclaimTable A p4 page.p4Index p3 id) s1).shade
        U p4 row := fun s1 =>
    reclaimTable_shade (fun heq => absurd heq hne3) hne2 hreclaim3
  simp only [shade_tables_of_ne hne2, hclear _ hne2, hreclaim2]
  split
  · rfl
  next h2 =>
  split
  · rfl
  next hh2 =>
  have hrow2 : (s.priv U p4).tables p2 = s.tables p2 := shade_tables_of_ne hne2
  have hq1 : tableOf (s.priv U p4).tables p4 [page.p4Index, page.p3Index, page.p2Index] =
      some (s.tables p2 page.p2Index).addr :=
    (tableOf_snoc _ _ [page.p4Index, page.p3Index] _).trans (by
      rw [hq2, bind_some, hrow2]
      exact child_of_present (by simpa using h2) (by simpa using hh2) (by simp))
  generalize (s.tables p2 page.p2Index).addr = p1 at hq1 ⊢
  have hne1 := h.table_ne hq1 (by simp)
  have hreclaim1 : ∀ s1 : MmState σ, reclaimTable A p2 page.p2Index p1
      (reclaimTable A p3 page.p3Index p2 (reclaimTable A p4 page.p4Index p3 id))
        (s1.shade U p4 row) =
      (reclaimTable A p2 page.p2Index p1
        (reclaimTable A p3 page.p3Index p2 (reclaimTable A p4 page.p4Index p3 id)) s1).shade
          U p4 row := fun s1 =>
    reclaimTable_shade (fun heq => absurd heq hne2) hne1 hreclaim2
  simp only [shade_tables_of_ne hne1, hclear _ hne1]
  split
  · rfl
  · refine Prod.ext rfl ?_
    rw [MapResult.shade, ← hreclaim1]
    refine congrArg (reclaimTable A p2 page.p2Index p1 _) ?_
    split <;> rfl

/-- Below the private entries there is no shaded one. -/
theorem tableOf_priv (hU : U i = true) (q : List (Fin 512)) :
    tableOf (s.priv U p4).tables p4 (i :: q) = tableOf s.tables p4 (i :: q) := by
  induction q using List.reverseRecOn with
  | nil =>
    rw [← nil_append [i], tableOf_snoc, tableOf_snoc]
    simp only [tableOf, tableAt_nil, bind_some]
    rw [shade_entry fun _ => hU]
  | append_singleton q j ih =>
    rw [← cons_append, tableOf_snoc, tableOf_snoc, ← ih]
    cases ht : tableOf (s.priv U p4).tables p4 (i :: q) with
    | none => rfl
    | some t =>
      rw [bind_some, bind_some, shade_tables_of_ne (h.table_ne ht (by simp))]

/-- The tables of the private part are tables of the address space. -/
theorem tableOf_of_priv (hq : tableOf (s.priv U p4).tables p4 q = some t) :
    tableOf s.tables p4 q = some t := by
  cases q with
  | nil => exact hq
  | cons i q =>
    cases hU : U i with
    | true => exact (tableOf_priv h hU q).symm.trans hq
    | false =>
      have hnone : tableOf (s.priv U p4).tables p4 [i] = none := by
        rw [← nil_append [i], tableOf_snoc]
        simp only [tableOf, tableAt_nil, bind_some, shade_entry_of_not hU]
        exact child_eq_none PageTableEntry.new_present _
      rw [← singleton_append, tableOf, tableAt_eq_none_of_append _ hnone] at hq
      cases hq

theorem leafOf_priv (hU : U i = true) (q : List (Fin 512)) (j : Fin 512) :
    leafOf (s.priv U p4).tables p4 (i :: q) j = leafOf s.tables p4 (i :: q) j := by
  unfold leafOf leafAt
  rw [← tableOf, ← tableOf, ← tableOf_priv h hU]
  cases ht : tableOf (s.priv U p4).tables p4 (i :: q) with
  | none => rfl
  | some t =>
    rw [map_some, map_some, shade_tables_of_ne (h.table_ne ht (by simp))]

end

/-- The private part of a P4 without shared entries is all of it. -/
theorem priv_univ : s.priv (fun _ => true) p4 = s := by
  simp [MmState.shade]

end Shade

/-! ## Calls for one of several P4s -/

section Spaces

variable {σ : Type} {A : FrameAllocator σ} {U : Fin 512 → Bool} {K P : Set PhysAddr} {p4 t : PhysAddr}
  {s s' : MmState σ} {p4' : PhysAddr} {page : VirtAddr} {q : List (Fin 512)}

/-- Address spaces whose private parts are tries of their own.  The tables in `K` are
those under the shared entries. -/
structure SpacesInv (A : FrameAllocator σ) (U : Fin 512 → Bool) (K P : Set PhysAddr)
    (s : MmState σ) : Prop where
  each : ∀ p4 ∈ P, MapperInv A p4 (s.priv U p4)
  apart : ∀ p4 ∈ P, ∀ p4' ∈ P, p4 ≠ p4' → ∀ q q' t, tableOf (s.priv U p4).tables p4 q = some t →
    tableOf (s.priv U p4').tables p4' q' ≠ some t
  common : ∀ p4 ∈ P, ∀ i, U i = false → ∀ c, tableFormat.child 0 (s.tables p4 i) = some c → c ∈ K
  closed : ∀ t ∈ K, ∀ d i c, 0 < d → tableFormat.child d (s.tables t i) = some c → c ∈ K
  kept : ∀ t ∈ K, t.Frame ∧ t ∈ A.held s.alloc
  off : ∀ p4 ∈ P, ∀ q t, tableOf (s.priv U p4).tables p4 q = some t → t ∉ K

/-- What a call for a page in the private part of `p4` leaves alone. -/
structure SpaceStep (A : FrameAllocator σ) (U : Fin 512 → Bool) (p4 : PhysAddr)
    (s s' : MmState σ) : Prop extends LocalStep A p4 (s.priv U p4) (s'.priv U p4) where
  inv : MapperInv A p4 (s'.priv U p4)
  row : ∀ i, U i = false → s'.tables p4 i = s.tables p4 i

theorem SpaceStep.rest (h : SpaceStep A U p4 s s') (hf : Outside A p4 (s.priv U p4) f) :
    s'.tables f = s.tables f ∧ f ∈ A.held s'.alloc ∧ s'.countOf f.pfn = s.countOf f.pfn := by
  have hne : f ≠ p4 := by
    rintro rfl
    exact hf.2.2 [] rfl
  have hrest := h.outside f hf
  rwa [shade_tables_of_ne hne, shade_tables_of_ne hne] at hrest

section

variable (h : SpacesInv A U K P s) (hp4 : p4 ∈ P)

include h hp4

/-- Every table is private or shared. -/
theorem SpacesInv.table_cases (ht : tableOf s.tables p4 q = some t) :
    tableOf (s.priv U p4).tables p4 q = some t ∨ t ∈ K := by
  cases q with
  | nil => exact .inl ht
  | cons i q =>
    cases hU : U i with
    | true => exact .inl ((tableOf_priv (h.each p4 hp4) hU q).trans ht)
    | false =>
      right
      induction q using List.reverseRecOn generalizing t with
      | nil =>
        rw [← nil_append [i], tableOf_snoc] at ht
        exact h.common p4 hp4 i hU t ht
      | append_singleton q j ih =>
        rw [← cons_append, tableOf_snoc] at ht
        obtain ⟨u, hu, hc⟩ := bind_eq_some_iff.mp ht
        exact h.closed u (ih hu) _ j t (by simp) hc

/-- The tables of the other address spaces are not touched. -/
theorem SpacesInv.outside (hp4' : p4' ∈ P) (hne : p4' ≠ p4)
    (ht : tableOf (s.priv U p4').tables p4' q = some t) : Outside A p4 (s.priv U p4) t :=
  ⟨tableOf_frame (h.each p4' hp4').root ht, (h.each p4' hp4').held q t ht,
    fun q' hq' => h.apart p4' hp4' p4 hp4 hne q q' t ht hq'⟩

theorem SpacesInv.outside_common (ht : t ∈ K) : Outside A p4 (s.priv U p4) t :=
  ⟨(h.kept t ht).1, (h.kept t ht).2, fun q hq => h.off p4 hp4 q t hq ht⟩

section

variable (hs : SpaceStep A U p4 s s') (hp4' : p4' ∈ P) (hne : p4' ≠ p4)

include hs hp4' hne

/-- The rows of another address space stay. -/
theorem SpacesInv.same_rows (ht : tableOf s.tables p4' q = some t) : s'.tables t = s.tables t := by
  rcases h.table_cases hp4' ht with hpriv | hK
  · exact (hs.rest (h.outside hp4 hp4' hne hpriv)).1
  · exact (hs.rest (h.outside_common hp4 hK)).1

/-- So do its private rows, and with them its private tables. -/
theorem SpacesInv.same_priv (ht : tableOf (s.priv U p4').tables p4' q = some t) :
    (s'.priv U p4').tables t = (s.priv U p4').tables t := by
  have hrow := (hs.rest (h.outside hp4 hp4' hne ht)).1
  by_cases heq : t = p4'
  · subst heq
    simp [MmState.shade, hrow]
  · rw [shade_tables_of_ne heq, shade_tables_of_ne heq, hrow]

theorem SpacesInv.same_tables (q : List (Fin 512)) :
    tableOf (s'.priv U p4').tables p4' q = tableOf (s.priv U p4').tables p4' q :=
  tableAt_same tableFormat (fun _ _ => h.same_priv hp4 hs hp4' hne) q

/-- The invariant of the other address spaces is kept. -/
theorem SpacesInv.other : MapperInv A p4' (s'.priv U p4') := by
  have hold := h.each p4' hp4'
  have htab := h.same_tables hp4 hs hp4' hne
  have hrest : ∀ {q t}, tableOf (s.priv U p4').tables p4' q = some t → _ := fun ht =>
    hs.rest (h.outside hp4 hp4' hne ht)
  refine ⟨hold.root, hold.separate.of_tableAt_imp fun q u hu => (htab q).symm.trans hu,
    fun q t ht => (hrest ((htab q).symm.trans ht)).2.1, fun c' hc' => ?_⟩
  have hnew := hs.inv.counts c' hc'
  -- The counters of the tables are the old ones.
  have hcount : ∀ {q t}, tableOf (s.priv U p4').tables p4' q = some t →
      ∃ c, s.counts = some c ∧ c'.base t.pfn = c.base t.pfn := by
    intro q t ht
    have hsame := (hrest ht).2.2
    simp only [MmState.countOf] at hsame
    rw [show s'.counts = some c' from hc', map_some] at hsame
    obtain ⟨c, hc, hbase⟩ := map_eq_some_iff.mp hsame.symm
    exact ⟨c, hc, hbase.symm⟩
  refine ⟨hnew.len, fun q t hne' ht => ?_, ?_, hnew.free⟩
  · replace ht := (htab q).symm.trans ht
    obtain ⟨c, hc, hbase⟩ := hcount ht
    have hok := hold.counts c hc
    rw [hbase, h.same_priv hp4 hs hp4' hne ht, hnew.len, ← hok.len]
    exact hok.table q t hne' ht
  · obtain ⟨c, hc, hbase⟩ := hcount (q := []) (t := p4') rfl
    rw [hbase]
    exact (hold.counts c hc).root

end

/-- A call for one address space keeps all of them. -/
theorem SpacesInv.step (hs : SpaceStep A U p4 s s') : SpacesInv A U K P s' := by
  have htab : ∀ {p4'}, p4' ∈ P → p4' ≠ p4 → ∀ q,
      tableOf (s'.priv U p4').tables p4' q = tableOf (s.priv U p4').tables p4' q :=
    fun hp4' hne => h.same_tables hp4 hs hp4' hne
  have hrowK : ∀ t ∈ K, s'.tables t = s.tables t := fun t ht =>
    (hs.rest (h.outside_common hp4 ht)).1
  -- A table of `p4` is an old one or a fresh one, so it is none of the others.
  have hapart : ∀ p4' ∈ P, p4' ≠ p4 → ∀ q q' t, tableOf (s'.priv U p4).tables p4 q = some t →
      tableOf (s'.priv U p4').tables p4' q' ≠ some t := by
    intro p4' hp4' hne q q' t ht ht'
    rw [htab hp4' hne] at ht'
    have hout := h.outside hp4 hp4' hne ht'
    rcases hs.fresh q t ht with ⟨q0, hq0⟩ | hnot
    · exact hout.2.2 q0 hq0
    · exact hnot hout.2.1
  constructor
  · intro p4' hp4'
    by_cases hne : p4' = p4
    · subst hne
      exact hs.inv
    · exact h.other hp4 hs hp4' hne
  · intro p1 hp1 p2 hp2 hne q q' t ht ht'
    by_cases h1 : p1 = p4
    · subst h1
      exact hapart p2 hp2 hne.symm q q' t ht ht'
    · by_cases h2 : p2 = p4
      · subst h2
        exact hapart p1 hp1 h1 q' q t ht' ht
      · rw [htab hp1 h1] at ht
        rw [htab hp2 h2] at ht'
        exact h.apart p1 hp1 p2 hp2 hne q q' t ht ht'
  · intro p4' hp4' i hi c hc
    refine h.common p4' hp4' i hi c ?_
    by_cases hne : p4' = p4
    · subst hne
      rwa [← hs.row i hi]
    · rwa [← h.same_rows hp4 hs hp4' hne (q := []) rfl]
  · intro t ht d i c hd hc
    rw [hrowK t ht] at hc
    exact h.closed t ht d i c hd hc
  · intro t ht
    exact ⟨(h.kept t ht).1, (hs.rest (h.outside_common hp4 ht)).2.1⟩
  · intro p4' hp4' q t ht hK
    by_cases hne : p4' = p4
    · subst hne
      rcases hs.fresh q t ht with ⟨q0, hq0⟩ | hnot
      · exact h.off p4' hp4' q0 t hq0 hK
      · exact hnot (h.kept t hK).2
    · rw [htab hp4' hne] at ht
      exact h.off p4' hp4' q t ht hK

/-- The leaves of the other address spaces stay. -/
theorem SpacesInv.same_leaves (hs : SpaceStep A U p4 s s') (hp4' : p4' ∈ P) (hne : p4' ≠ p4)
    (q : List (Fin 512)) (j : Fin 512) : leafOf s'.tables p4' q j = leafOf s.tables p4' q j :=
  leafAt_same tableFormat (fun _ _ => h.same_rows hp4 hs hp4' hne) q j

/-- The leaves under the shared entries of `p4` stay. -/
theorem SpacesInv.same_common (hs : SpaceStep A U p4 s s') (hi : U i = false) (q : List (Fin 512))
    (j : Fin 512) :
    leafOf s'.tables p4 (i :: q) j = leafOf s.tables p4 (i :: q) j := by
  have hrowK : ∀ t ∈ K, s'.tables t = s.tables t := fun t ht =>
    (hs.rest (h.outside_common hp4 ht)).1
  have htab : ∀ q, tableOf s'.tables p4 (i :: q) = tableOf s.tables p4 (i :: q) ∧
      ∀ t, tableOf s.tables p4 (i :: q) = some t → t ∈ K := by
    intro q
    induction q using List.reverseRecOn with
    | nil =>
      rw [← nil_append [i], tableOf_snoc, tableOf_snoc]
      simp only [tableOf, tableAt_nil, bind_some, length_nil, hs.row i hi, true_and]
      exact h.common p4 hp4 i hi
    | append_singleton q j ih =>
      rw [← cons_append, tableOf_snoc, tableOf_snoc, ih.1]
      cases ht : tableOf s.tables p4 (i :: q) with
      | none => simp
      | some t =>
        have hK := ih.2 t ht
        simp only [bind_some, hrowK t hK, true_and]
        exact fun c hc => h.closed t hK _ j c (by simp) hc
  unfold leafOf leafAt
  rw [← tableOf, ← tableOf, (htab q).1]
  cases ht : tableOf s.tables p4 (i :: q) with
  | none => rfl
  | some t => rw [map_some, map_some, hrowK t ((htab q).2 t ht)]

end

/-! ## Writing to other frames -/

/-- A frame in use as a table. -/
def TableFrame (U : Fin 512 → Bool) (K P : Set PhysAddr) (s : MmState σ) (t : PhysAddr) : Prop :=
  t ∈ K ∨ ∃ p4 ∈ P, ∃ q, tableOf (s.priv U p4).tables p4 q = some t

theorem SpacesInv.tableFrame_held (h : SpacesInv A U K P s) (ht : TableFrame U K P s t) :
    t ∈ A.held s.alloc := by
  rcases ht with hK | ⟨p4, hp4, q, hq⟩
  · exact (h.kept t hK).2
  · exact (h.each p4 hp4).held q t hq

theorem SpacesInv.tableFrame (h : SpacesInv A U K P s) (hp4 : p4 ∈ P)
    (ht : tableOf s.tables p4 q = some t) : TableFrame U K P s t := by
  rcases h.table_cases hp4 ht with hpriv | hK
  · exact .inr ⟨p4, hp4, q, hpriv⟩
  · exact .inl hK

theorem priv_row (hrow : s'.tables t = s.tables t) :
    (s'.priv U p4).tables t = (s.priv U p4).tables t := by
  by_cases heq : t = p4
  · subst heq
    simp [MmState.shade, hrow]
  · rw [shade_tables_of_ne heq, shade_tables_of_ne heq, hrow]

section Fill

variable (hrow : ∀ t, TableFrame U K P s t → s'.tables t = s.tables t)
include hrow

/-- Writing to frames that are no tables changes no leaf. -/
theorem SpacesInv.fill_leaves (h : SpacesInv A U K P s) (hp4 : p4 ∈ P) (q : List (Fin 512))
    (j : Fin 512) : leafOf s'.tables p4 q j = leafOf s.tables p4 q j :=
  leafAt_same tableFormat (fun _ t ht => hrow t (h.tableFrame hp4 ht)) q j

/-- Nor does it change a table of a private part. -/
theorem fill_tables (hp4 : p4 ∈ P) (q : List (Fin 512)) :
    tableOf (s'.priv U p4).tables p4 q = tableOf (s.priv U p4).tables p4 q :=
  tableAt_same tableFormat (fun q t ht => priv_row (hrow t (.inr ⟨p4, hp4, q, ht⟩))) q

/-- Allocating frames and writing to frames that are no tables keeps the address spaces. -/
theorem SpacesInv.fill (h : SpacesInv A U K P s) (hheld : A.held s.alloc ⊆ A.held s'.alloc)
    (hcounts : s'.counts = s.counts) : SpacesInv A U K P s' := by
  have htab : ∀ p4 ∈ P, ∀ q,
      tableOf (s'.priv U p4).tables p4 q = tableOf (s.priv U p4).tables p4 q := fun p4 hp4 =>
    fill_tables hrow hp4
  refine ⟨fun p4 hp4 => ?_, fun p4 hp4 p4' hp4' hne q q' t ht ht' => ?_,
    fun p4 hp4 i hi c hc => ?_, fun t ht d i c hd hc => ?_,
    fun t ht => ⟨(h.kept t ht).1, hheld (h.kept t ht).2⟩, fun p4 hp4 q t ht => ?_⟩
  · have hold := h.each p4 hp4
    refine ⟨hold.root, hold.separate.of_tableAt_imp fun q u hu => (htab p4 hp4 q).symm.trans hu,
      fun q t ht => hheld (hold.held q t ((htab p4 hp4 q).symm.trans ht)), fun c hc => ?_⟩
    have hok := hold.counts c (hcounts.symm.trans hc)
    refine ⟨hok.len, fun q t hne ht => ?_, hok.root, fun f hf hnot => hok.free f hf fun hmem =>
      hnot (hheld hmem)⟩
    replace ht := (htab p4 hp4 q).symm.trans ht
    rw [priv_row (hrow t (.inr ⟨p4, hp4, q, ht⟩))]
    exact hok.table q t hne ht
  · rw [htab p4 hp4] at ht
    rw [htab p4' hp4'] at ht'
    exact h.apart p4 hp4 p4' hp4' hne q q' t ht ht'
  · rw [hrow p4 (.inr ⟨p4, hp4, [], rfl⟩)] at hc
    exact h.common p4 hp4 i hi c hc
  · rw [hrow t (.inl ht)] at hc
    exact h.closed t ht d i c hd hc
  · rw [htab p4 hp4] at ht
    exact h.off p4 hp4 q t ht

end Fill

/-! ## Mapping and unmapping -/

theorem mapPageInner_space (h : MapperInv A p4 (s.priv U p4)) (hU : U page.p4Index = true)
    (hlt : frame.asU64.toNat < 2 ^ 52) (hrun : mapPageInner A p4 page frame flags s = (r, s')) :
    let l := selectLevel page frame flags
    SpaceStep A U p4 s s' ∧
      ((r = .ok () ∧ (l = .small ∨ page.asU64.toNat % l.size = 0) ∧
        LeafAdded A p4 (l.path page) (l.index page) frame (l.leafFlags flags) (s.priv U p4)
          (s'.priv U p4) ∧
        s'.rmap = l.record s.rmap frame p4 page flags) ∨
      (∃ e, r = .error e) ∧ GrowStep A p4 (s.priv U p4) (s'.priv U p4)) := by
  intro l
  have hpriv : mapPageInner A p4 page frame flags (s.priv U p4) = (r, s'.priv U p4) := by
    rw [mapPageInner_shade h hU, hrun]
    rfl
  have hrow : ∀ i, U i = false → s'.tables p4 i = s.tables p4 i := by
    intro i hi
    have hself : s.shade U p4 (s.tables p4) = s := by simp [MmState.shade]
    have hshade := mapPageInner_shade h hU (s.tables p4) frame flags
    rw [hself, hrun, MapResult.shade, Prod.mk.injEq] at hshade
    rw [hshade.2, shade_entry_of_not hi]
  have hspec := mapPageInner_spec h hlt hpriv
  refine ⟨?_, hspec⟩
  rcases hspec with ⟨-, -, hadd, -⟩ | ⟨-, hgrow⟩
  · exact ⟨hadd.toLocalStep, hadd.inv, hrow⟩
  · exact ⟨hgrow.toLocalStep, hgrow.inv, hrow⟩

theorem unmapPageInner_space (h : MapperInv A p4 (s.priv U p4)) (hU : U page.p4Index = true)
    (hrun : unmapPageInner A p4 page s = (r, s')) :
    SpaceStep A U p4 s s' ∧
      ((∃ (l : PageLevel) (e : PageTableEntry), r = .ok e.addr ∧
        LeafCleared A p4 (l.path page) (l.index page) e (s.priv U p4) (s'.priv U p4) ∧
        s'.rmap = l.forget s.rmap e p4 page) ∨
      r = .error (.err .PageNotMapped) ∧ s' = s) := by
  have hpriv : unmapPageInner A p4 page (s.priv U p4) = (r, s'.priv U p4) := by
    rw [unmapPageInner_shade h hU, hrun]
    rfl
  have hself : s.shade U p4 (s.tables p4) = s := by simp [MmState.shade]
  have hshade := unmapPageInner_shade h hU (s.tables p4)
  rw [hself, hrun, MapResult.shade, Prod.mk.injEq] at hshade
  have hrow : ∀ i, U i = false → s'.tables p4 i = s.tables p4 i := by
    intro i hi
    rw [hshade.2, shade_entry_of_not hi]
  rcases unmapPageInner_spec h hpriv with ⟨l, e, rfl, hclear, hrmap⟩ | ⟨rfl, hsame⟩
  · exact ⟨⟨hclear.toLocalStep, hclear.inv, hrow⟩, .inl ⟨l, e, rfl, hclear, hrmap⟩⟩
  · obtain rfl : s' = s := eq_of_shade hsame hrow
    exact ⟨⟨.refl, h, fun _ _ => rfl⟩, .inr ⟨rfl, rfl⟩⟩

/-- The first index of every path is the P4 index. -/
theorem PageLevel.path_cons (l : PageLevel) (v : VirtAddr) : ∃ q, l.path v = v.p4Index :: q := by
  cases l <;> exact ⟨_, rfl⟩

/-- If a call replaces the leaf of a page, the leaves of all other pages in all address
spaces stay. -/
theorem SpacesInv.pageLeaf_step (h : SpacesInv A U K P s) (hp4 : p4 ∈ P)
    (hs : SpaceStep A U p4 s s') (hpage : page.Canonical) (hU : U page.p4Index = true)
    (hleaves : ∀ q j, leafOf (s'.priv U p4).tables p4 q j =
      if q = l.path page ∧ j = l.index page then new else leafOf (s.priv U p4).tables p4 q j)
    (hp4' : p4' ∈ P) (hv : v.Canonical) (l' : PageLevel) :
    pageLeaf s'.tables p4' l' v =
      if p4' = p4 ∧ l' = l ∧ v.asU64.toNat / l.size = page.asU64.toNat / l.size then new
      else pageLeaf s.tables p4' l' v := by
  by_cases heq : p4' = p4
  · subst heq
    obtain ⟨q, hq⟩ := l'.path_cons v
    have hslot : (l'.path v = l.path page ∧ l'.index v = l.index page) ↔
        l' = l ∧ v.asU64.toNat / l.size = page.asU64.toNat / l.size := by
      constructor
      · intro hpath
        obtain rfl := PageLevel.path_length _ _ _ hpath.1
        exact ⟨rfl, (l'.slot_eq_iff hv hpage).mp hpath⟩
      · rintro ⟨rfl, hsame⟩
        exact (l'.slot_eq_iff hv hpage).mpr hsame
    simp only [pageLeaf, true_and, ← hslot]
    cases hUv : U v.p4Index with
    | true =>
      have hleaf := hleaves (l'.path v) (l'.index v)
      rw [hq] at hleaf ⊢
      rwa [leafOf_priv hs.inv hUv, leafOf_priv (h.each _ hp4) hUv] at hleaf
    | false =>
      rw [if_neg, hq]
      · exact h.same_common hp4 hs hUv q _
      · rintro ⟨hpath, -⟩
        obtain ⟨q', hq'⟩ := l.path_cons page
        rw [hq, hq'] at hpath
        rw [(List.cons.inj hpath).1, hU] at hUv
        cases hUv
  · rw [if_neg fun hc => heq hc.1]
    exact h.same_leaves hp4 hs hp4' heq _ _

/-- A call that changes no leaf of the private part changes none at all. -/
theorem SpacesInv.pageLeaf_quiet (h : SpacesInv A U K P s) (hp4 : p4 ∈ P)
    (hs : SpaceStep A U p4 s s')
    (hleaves : ∀ q j, leafOf (s'.priv U p4).tables p4 q j = leafOf (s.priv U p4).tables p4 q j)
    (hp4' : p4' ∈ P) (v : VirtAddr) (l : PageLevel) :
    pageLeaf s'.tables p4' l v = pageLeaf s.tables p4' l v := by
  by_cases heq : p4' = p4
  · subst heq
    obtain ⟨q, hq⟩ := l.path_cons v
    simp only [pageLeaf, hq]
    cases hUv : U v.p4Index with
    | true =>
      rw [← leafOf_priv hs.inv hUv, ← leafOf_priv (h.each _ hp4) hUv]
      exact hleaves _ _
    | false => exact h.same_common hp4 hs hUv q _
  · exact h.same_leaves hp4 hs hp4' heq _ _

end Spaces

end BoruixKernel
