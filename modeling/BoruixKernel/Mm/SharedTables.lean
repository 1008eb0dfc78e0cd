import BoruixKernel.Mm.Recount

/-!
# The shared kernel tables

`init_kernel_shared_p4` hangs an empty P3 table under every free entry of the upper
half of the P4, and counts nothing.  A table the mapper creates counts its leaves and
itself, so it never looks empty while there are counters.  A P3 table that
`init_kernel_shared_p4` made counts its leaves only: it looks empty when its last
1 GiB page is unmapped, whatever P2 tables it links.

The proofs raise the counters by what `init_kernel_shared_p4` did not count
(`MmState.raise`).  No step of `map_page` reads a counter, so the raised state takes
the same steps and keeps the invariant of the mapper.
-/

namespace BoruixKernel

open PointerTrie Function List Option

/-! ## Setting up the upper half -/

section Init

variable {σ : Type} (A : FrameAllocator σ) (p4 : PhysAddr)

/-- One round of `init_kernel_shared_p4`: hang a zeroed P3 table under an entry that is
not present. -/
def initSharedSlot (i : Fin 512) (s : MmState σ) : MapResult σ Unit :=
  if (s.tables p4 i).present then (.ok (), s)
  else
    match A.allocateFrame s.alloc with
    | (none, a) =>
      (.error (.panic "PMM: failed to allocate P3 table for shared kernel mappings"),
        { s with alloc := a })
    | (some phys, a) =>
      (({ s with alloc := a } : MmState σ).zeroFrame phys).setAddr p4 i phys
        (.PRESENT ||| .WRITABLE ||| .USER_ACCESSIBLE)

/-- The loop of `init_kernel_shared_p4`. -/
def initSharedSlots : List (Fin 512) → MmState σ → MapResult σ Unit
  | [], s => (.ok (), s)
  | i :: slots, s => (initSharedSlot A p4 i s).andThen fun _ s => initSharedSlots slots s

/-- Give every entry of the upper half of the P4 in `CR3` a P3 table. -/
def initKernelSharedP4 (s : MmState σ) : MapResult σ Unit :=
  match s.physOffset with
  | none => (.error (.panic "PHYS_OFFSET not initialized"), s)
  | some _ => initSharedSlots A p4 ((List.finRange 512).drop 256) s

end Init

/-! ## What is claimed and when it holds -/

section Discards

variable {σ : Type}

/-- A table that stood under the P4 before a step is cut off or given back by it, with a
present entry in it. -/
def DiscardsInUse (A : FrameAllocator σ) (p4 : PhysAddr) (s s' : MmState σ) : Prop :=
  ∃ q t, tableOf s.tables p4 q = some t ∧
    (tableOf s'.tables p4 q ≠ some t ∨ t ∉ A.held s'.alloc) ∧ ∃ i, (s'.tables t i).present = true

/-- The slots whose P3 table is still the one `init_kernel_shared_p4` hung there: `s₀` is
the state before it ran, `h` the calls since. -/
def sharedSlots (p4 : PhysAddr) (s₀ : MmState σ) (h : List (MapEvent σ)) : Set (Fin 512) :=
  {i | 256 ≤ i.val ∧ (s₀.tables p4 i).present = false ∧
    ∀ e ∈ h, (e.after.tables p4 i).present = true}

/-- The page is the only 1 GiB page of a shared P3 table. -/
def LastGiant (K : Set (Fin 512)) (p4 : PhysAddr) (page : VirtAddr) (s : MmState σ) : Prop :=
  page.p4Index ∈ K ∧
    ∀ j, (leafOf s.tables p4 [page.p4Index] j).isSome = true ↔ j = page.p3Index

/-- The page is the only 1 GiB page of a shared P3 table that also links a P2 table. -/
def LastGiantOfLinked (K : Set (Fin 512)) (p4 : PhysAddr) (page : VirtAddr) (s : MmState σ) :
    Prop :=
  LastGiant K p4 page s ∧ ∃ j p2, tableOf s.tables p4 [page.p4Index, j] = some p2

end Discards

/-! ## Raised counters -/

/-- The counters, each raised by `b`. -/
def PageTableCountTable.raise (c : PageTableCountTable) (b : Nat → UInt16) :
    PageTableCountTable :=
  { c with base := fun n => c.base n + b n }

theorem countsNaturally_raise (b : Nat → UInt16) : CountsNaturally fun c => c.map (·.raise b) := by
  intro c t d
  cases c with
  | none => rfl
  | some c =>
    simp only [bumpTableCount, map_some, PageTableCountTable.raise]
    split
    next =>
      congr 2
      funext n
      by_cases hn : n = t.pfn
      · subst hn
        simp only [update_self]
        rw [UInt16.add_assoc, UInt16.add_comm (b _), ← UInt16.add_assoc]
      · simp [update_of_ne hn]
    next => rfl

namespace MmState

variable {σ : Type}

def raise (s : MmState σ) (b : Nat → UInt16) : MmState σ :=
  { s with counts := s.counts.map (·.raise b) }

variable (s : MmState σ) (b : Nat → UInt16)

@[simp] theorem raise_tables : (s.raise b).tables = s.tables := rfl

@[simp] theorem raise_alloc : (s.raise b).alloc = s.alloc := rfl

theorem raise_zero : s.raise (fun _ => 0) = s := by
  have hid : s.counts.map (·.raise fun _ => 0) = s.counts := by
    cases s.counts with
    | none => rfl
    | some c => simp [PageTableCountTable.raise]
  rw [raise, hid]

theorem raise_decCount (t : PhysAddr) : (s.raise b).decCount t = (s.decCount t).raise b :=
  recount_decCount (countsNaturally_raise b) s t

end MmState

/-! ## The invariant -/

section Shared

variable {σ : Type} {A : FrameAllocator σ} {p4 t : PhysAddr} {s s' : MmState σ} {K : Set (Fin 512)}
  {b : Nat → UInt16} {page : VirtAddr} {q : List (Fin 512)} {i : Fin 512}

/-- The invariant of the mapper when the P3 tables at the slots `K` miss one in their
counters. -/
structure SharedInv (A : FrameAllocator σ) (p4 : PhysAddr) (K : Set (Fin 512))
    (b : Nat → UInt16) (s : MmState σ) : Prop where
  inv : MapperInv A p4 (s.raise b)
  counted : s.counts.isSome = true
  shared : ∀ i ∈ K, ∃ t, tableOf s.tables p4 [i] = some t ∧ b t.pfn = 1
  other : ∀ q t, q ≠ [] → (∀ i ∈ K, q ≠ [i]) → tableOf s.tables p4 q = some t → b t.pfn = 0
  free : ∀ f : PhysAddr, f.Frame → f ∉ A.held s.alloc → b f.pfn = 0

theorem MapperInv.sharedInv (h : MapperInv A p4 s) (hcounts : s.counts.isSome = true) :
    SharedInv A p4 ∅ (fun _ => 0) s where
  inv := by rwa [s.raise_zero]
  counted := hcounts
  shared i hi := absurd hi (Set.notMem_empty i)
  other _ _ _ _ _ := rfl
  free _ _ _ := rfl

theorem isSome_bumpTableCount (c : Option PageTableCountTable) (t : PhysAddr) (d : UInt16) :
    (bumpTableCount c t d).isSome = c.isSome := isSome_map

/-- A P3 table stands where the P4 has a present entry. -/
theorem present_of_tableOf (h : tableOf T p4 [i] = some t) : (T p4 i).present = true := by
  rw [← nil_append [i], tableOf_snoc] at h
  exact (of_child h).1

theorem tableOf_of_present (h : (T p4 i).present = true) : tableOf T p4 [i] = some (T p4 i).addr := by
  simp [tableAt, descend, tableFormat, h]

/-- The length of the counters never changes. -/
theorem len_bumpTableCount (h : bumpTableCount (some c) t d = some c') : c'.len = c.len := by
  rw [bumpTableCount, map_some, Option.some.injEq] at h
  split at h <;> rw [← h]

/-- The counters after the table `t` was cut off, with the P4 back at zero. -/
theorem CountsOk.cut (hp4 : p4.Frame) (h : CountsOk total p4 T H c)
    (hback : ∀ q u, tableOf T' p4 q = some u → tableOf T p4 q = some u ∧ u ≠ t ∧ (q ≠ [] → u ≠ p4))
    (hrow : ∀ u ≠ p4, T' u = T u) (hlen : c'.len = c.len) (hroot : c'.base p4.pfn = 0)
    (ht : c'.base t.pfn = 0)
    (hoff : ∀ f : PhysAddr, f.Frame → f ≠ t → f ≠ p4 → c'.base f.pfn = c.base f.pfn) :
    CountsOk total p4 T' (H \ {t}) c' := by
  refine ⟨hlen.trans h.len, fun q u hne hu => ?_, hroot, fun f hf hfH => ?_⟩
  · obtain ⟨hu', hut, hu4⟩ := hback q u hu
    rw [hlen, hoff u (tableOf_frame hp4 hu') hut (hu4 hne), hrow u (hu4 hne)]
    exact h.table q u hne hu'
  · by_cases hft : f = t
    · rw [hft, ht]
    by_cases hf4 : f = p4
    · rw [hf4, hroot]
    · rw [hoff f hf hft hf4]
      exact h.free f hf fun hmem => hfH ⟨hmem, hft⟩

variable {frame : PhysAddr} {r : Except MapFault Unit} {s₀ s₁ : MmState σ}

/-- `map_page` keeps the counters set up. -/
theorem mapPageInner_counted (h : MapperInv A p4 s) (hcounted : s.counts.isSome = true)
    (hlt : frame.asU64.toNat < 2 ^ 52) (hrun : mapPageInner A p4 page frame flags s = (r, s'))
    (hr : ∀ msg, r ≠ .error (.panic msg)) : s'.counts.isSome = true := by
  refine mapPageInner_steps (R := fun s s' => s.counts.isSome = true → s'.counts.isSome = true)
    (fun _ _ _ h₁ h₂ hs => h₂ (h₁ hs)) ?_ ?_ (fun _ _ => id) h hlt hrun hr hcounted
  · intro s s' q t i r _ _ _ hnext hr hs
    unfold getNextTableByIndex at hnext
    dsimp only at hnext
    split at hnext
    · split at hnext <;> cases hnext <;> exact hs
    split at hnext
    next =>
      cases hnext
      exact hs
    next phys a halloc =>
      split at hnext
      · cases hnext
        exact hs
      · simp only [MmState.setAddr, (A.allocate_some halloc).1.isAligned, if_true,
          MapResult.andThen] at hnext
        cases hnext
        exact (isSome_bumpTableCount _ _ _).trans hs
  · intro s q t i e _ _ _ _ hs
    exact (isSome_bumpTableCount _ _ _).trans hs

namespace SharedInv

section

variable (h : SharedInv A p4 K b s)

include h

/-- A step that removes no table keeps the invariant. -/
theorem of_kept (hcounted : s'.counts.isSome = true) (hloc : LocalStep A p4 (s.raise b) (s'.raise b))
    (hinv' : MapperInv A p4 (s'.raise b))
    (hkept : ∀ q t, tableOf s.tables p4 q = some t → tableOf s'.tables p4 q = some t) :
    SharedInv A p4 K b s' where
  inv := hinv'
  counted := hcounted
  shared i hi := by
    obtain ⟨t, ht, hb⟩ := h.shared i hi
    exact ⟨t, hkept _ t ht, hb⟩
  other q t hne hK ht := by
    rcases hloc.fresh q t ht with ⟨q', hq'⟩ | hnew
    · obtain rfl := hinv'.separate q' q t (hkept q' t hq') ht
      exact h.other q' t hne hK hq'
    · exact h.free t (tableOf_frame h.inv.root ht) hnew
  free f hf hnot := h.free f hf fun hheld => hnot (hloc.held_mono hinv' hkept hf hheld)

/-- The slots of tables the P4 points to. -/
theorem present : K ∩ {i | (s.tables p4 i).present = true} = K := by
  refine Set.inter_eq_left.mpr fun i hi => ?_
  obtain ⟨t, ht, -⟩ := h.shared i hi
  exact present_of_tableOf ht

/-- A table that is not shared does not look empty. -/
theorem tableEmpty_other (hne : q ≠ []) (hK : ∀ i ∈ K, q ≠ [i]) (hq : tableOf s.tables p4 q = some t) :
    s.tableEmpty t = false := by
  by_contra hempty
  rw [Bool.not_eq_false] at hempty
  obtain ⟨c, hc⟩ := isSome_iff_exists.mp h.counted
  -- The raised counter is the counter, and it is never zero.
  have hraised : (s.raise b).tableEmpty t = true := by
    rw [← hempty]
    simp [MmState.tableEmpty, MmState.raise, hc, tableCount, PageTableCountTable.raise, h.other q t hne hK hq]
  have hnone := (h.inv.of_tableEmpty hne hq hraised).1
  simp only [MmState.raise, hc, map_some, reduceCtorEq] at hnone

/-- A shared table looks empty when it has no leaf. -/
theorem tableEmpty_shared (hi : i ∈ K) (ht : tableOf s.tables p4 [i] = some t) :
    s.tableEmpty t = true ↔ leafCount 1 (s.tables t) = 0 := by
  obtain ⟨u, hu, hb⟩ := h.shared i hi
  obtain rfl := Option.some.inj (hu.symm.trans ht)
  obtain ⟨c, hc⟩ := isSome_iff_exists.mp h.counted
  have hraised : (s.raise b).counts = some (c.raise b) := by rw [MmState.raise, hc]; rfl
  obtain ⟨hlt, hcount⟩ := (h.inv.counts _ hraised).table [i] u (by simp) ht
  simp only [PageTableCountTable.raise, hb, UInt16.toNat_add] at hcount hlt
  have hle := leafCount_le 1 (s.tables u)
  have hbound := (c.base u.pfn).toNat_lt
  simp only [MmState.tableEmpty, hc, tableCount, bind_some, if_pos hlt, getD_some,
    beq_iff_eq, ← UInt16.toNat_inj, UInt16.toNat_zero]
  simp only [length_singleton, MmState.raise_tables, UInt16.reduceToNat] at hcount
  omega

/-! ### What `init_kernel_shared_p4` sets up -/

/-- A fresh table hung under the P4 and not counted. -/
theorem hang (hold : (s.tables p4 i).present = false)
    (halloc : A.allocateFrame s.alloc = (some c, a)) :
    SharedInv A p4 (insert i K) (update b c.pfn 1)
      ((({ s with alloc := a } : MmState σ).zeroFrame c).setEntry p4 i (.pack c linkFlags)) := by
  obtain ⟨hcf, hclt, hcnew, hheld⟩ := A.allocate_some halloc
  obtain ⟨hinv, -, htab⟩ := h.inv.grow (q := []) rfl (by simp) hold halloc
  have hbc : b c.pfn = 0 := h.free c hcf hcnew
  have hoff : ∀ f : PhysAddr, f.Frame → f ≠ c → update b c.pfn 1 f.pfn = b f.pfn :=
    fun f hf hfc => update_of_ne (fun heq => hfc (hf.pfn_inj hcf heq)) _ _
  -- Raising the counter of the fresh table is counting it.
  have hcounts : s.counts.map (·.raise (update b c.pfn 1)) =
      bumpTableCount (s.counts.map (·.raise b)) c 1 := by
    obtain ⟨k, hk⟩ := isSome_iff_exists.mp h.counted
    have hraised : (s.raise b).counts = some (k.raise b) := by rw [MmState.raise, hk]; rfl
    have hlen : (k.raise b).len = A.totalFrames := (h.inv.counts _ hraised).len
    rw [hk, map_some, map_some, bumpTableCount_of_lt (hlen ▸ hclt)]
    simp only [PageTableCountTable.raise]
    congr 2
    funext n
    by_cases hn : n = c.pfn
    · subst hn
      simp [update_self, hbc, UInt16.add_zero]
    · simp [update_of_ne hn]
  have hfresh : ∀ q, tableOf s.tables p4 q ≠ some c := fun q hq => hcnew (h.inv.held q c hq)
  refine ⟨?_, h.counted, fun j hj => ?_, fun q t hne hK ht => ?_, fun f hf hnot => ?_⟩
  · have hraise : ((({ s with alloc := a } : MmState σ).zeroFrame c).setEntry p4 i
        (.pack c linkFlags)).raise (update b c.pfn 1) =
        (((({ s.raise b with alloc := a } : MmState σ)).zeroFrame c).setEntry p4 i
          (.pack c linkFlags)).incCount c := by
      simp [MmState.raise, MmState.setEntry, MmState.zeroFrame, MmState.incCount, incTableCount, hcounts]
    rw [hraise]
    exact hinv
  · rcases Set.mem_insert_iff.mp hj with rfl | hj
    · exact ⟨c, (htab [j]).trans (if_pos rfl), update_self _ _ _⟩
    · obtain ⟨t, ht, hb⟩ := h.shared j hj
      have hji : j ≠ i := by
        rintro rfl
        rw [present_of_tableOf ht] at hold
        cases hold
      refine ⟨t, ((htab [j]).trans (if_neg (by simpa using hji))).trans ht, ?_⟩
      rw [hoff t (tableOf_frame h.inv.root ht) fun htc => hfresh [j] (htc ▸ ht), hb]
  · have hqi : q ≠ [i] := hK i (Set.mem_insert i K)
    have ht' : tableOf s.tables p4 q = some t := ((htab q).trans (if_neg hqi)).symm.trans ht
    rw [hoff t (tableOf_frame h.inv.root ht') fun htc => hfresh q (htc ▸ ht')]
    exact h.other q t hne (fun j hj => hK j (Set.mem_insert_of_mem i hj)) ht'
  · have hnot' : f ∉ insert c (A.held s.alloc) := hheld ▸ hnot
    rw [Set.mem_insert_iff, not_or] at hnot'
    rw [hoff f hf hnot'.1, h.free f hf hnot'.2]

/-- The loop of `init_kernel_shared_p4`: it hangs a table under every entry that was not
present. -/
theorem of_initSharedSlots {slots : List (Fin 512)} (hrun : initSharedSlots A p4 slots s = (.ok (), s')) :
    ∃ b', SharedInv A p4 (K ∪ {i | i ∈ slots ∧ (s.tables p4 i).present = false}) b' s' := by
  induction slots generalizing K b s with
  | nil =>
    cases hrun
    refine ⟨b, ?_⟩
    simpa using h
  | cons i slots ih =>
    rw [initSharedSlots, initSharedSlot] at hrun
    cases hp : (s.tables p4 i).present with
    | true =>
      rw [if_pos hp] at hrun
      obtain ⟨b', h'⟩ := ih h hrun
      refine ⟨b', ?_⟩
      have hset : {j | j ∈ i :: slots ∧ (s.tables p4 j).present = false} =
          {j | j ∈ slots ∧ (s.tables p4 j).present = false} := by
        ext j
        simp only [mem_cons, Set.mem_ofPred_eq]
        constructor
        · rintro ⟨rfl | hj, hfalse⟩
          · rw [hp] at hfalse
            cases hfalse
          · exact ⟨hj, hfalse⟩
        · rintro ⟨hj, hfalse⟩
          exact ⟨.inr hj, hfalse⟩
      rwa [hset]
    | false =>
      rw [if_neg (by rw [hp]; exact Bool.false_ne_true)] at hrun
      rcases halloc : A.allocateFrame s.alloc with ⟨_ | c, a⟩
      · rw [halloc] at hrun
        cases hrun
      obtain ⟨hcf, -, hcnew, -⟩ := A.allocate_some halloc
      rw [halloc] at hrun
      simp only [MmState.setAddr, hcf.isAligned, if_true, MapResult.andThen] at hrun
      obtain ⟨b', h'⟩ := ih (h.hang hp halloc) hrun
      refine ⟨b', ?_⟩
      -- The entries of the P4 other than the one just written.
      have hp4c : p4 ≠ c := fun heq => hcnew (heq ▸ h.inv.held [] p4 rfl)
      have hentry : ∀ j, ((({ s with alloc := a } : MmState σ).zeroFrame c).setEntry p4 i
          (.pack c linkFlags)).tables p4 j = if j = i then .pack c linkFlags else s.tables p4 j := by
        intro j
        simp [MmState.setEntry, MmState.zeroFrame, set_apply, true_and, update_of_ne hp4c]
      have hlink : (PageTableEntry.pack c linkFlags).present = true :=
        (of_child (child_link hcf (d := 0) (by omega))).1
      convert h' using 1
      ext j
      simp only [Set.mem_union, Set.mem_insert_iff, Set.mem_ofPred_eq, mem_cons, hentry]
      by_cases hji : j = i
      · subst hji
        simp [hp]
      · simp [hji]

/-! ### What the calls keep -/

theorem mapPageInner (hlt : frame.asU64.toNat < 2 ^ 52)
    (hrun : mapPageInner A p4 page frame flags s = (r, s')) (hr : ∀ msg, r ≠ .error (.panic msg)) :
    SharedInv A p4 K b s' := by
  have hraised : BoruixKernel.mapPageInner A p4 page frame flags (s.raise b) =
      (r, s'.raise b) := by
    refine (mapPageInner_recount (countsNaturally_raise b) page frame flags s).trans ?_
    rw [hrun]
    rfl
  have hcounted : s'.counts.isSome = true := by
    have hsome := mapPageInner_counted h.inv (isSome_map.trans h.counted) hlt hraised hr
    exact isSome_map.symm.trans hsome
  rcases mapPageInner_spec h.inv hlt hraised with ⟨-, -, hadd, -⟩ | ⟨-, hgrow⟩
  · exact h.of_kept hcounted hadd.toLocalStep hadd.inv hadd.kept
  · exact h.of_kept hcounted hgrow.toLocalStep hgrow.inv hgrow.kept

theorem clearLeaf (hq : tableOf s.tables p4 q = some t)
    (hleaf : tableFormat.leaf q.length (s.tables t i) = true) :
    SharedInv A p4 K b ((s.setEntry t i .new).decCount t) ∧
      ∀ q', tableOf ((s.setEntry t i .new).decCount t).tables p4 q' = tableOf s.tables p4 q' := by
  obtain ⟨hclear, htab⟩ := h.inv.leafCleared hq hleaf
  have hraise : ((s.raise b).setEntry t i .new).decCount t =
      ((s.setEntry t i .new).decCount t).raise b := by
    exact MmState.raise_decCount (s.setEntry t i .new) b t
  rw [hraise] at hclear
  refine ⟨h.of_kept ?_ hclear.toLocalStep hclear.inv fun q' u hu => (htab q').trans hu, htab⟩
  rw [← h.counted]
  exact isSome_bumpTableCount _ _ _

/-- Cutting a shared table off and giving its frame back. -/
theorem drop (hi : i ∈ K) (ht : tableOf s.tables p4 [i] = some t)
    (hempty : leafCount 1 (s.tables t) = 0) :
    let s' := (({ s with alloc := A.deallocateFrame s.alloc t } : MmState σ).setEntry p4 i
      .new).decCount p4
    (∃ b', SharedInv A p4 (K \ {i}) b' s') ∧
      ∀ q, tableOf s'.tables p4 q = if [i] <+: q then none else tableOf s.tables p4 q := by
  intro s'
  have htab : ∀ q, tableOf s'.tables p4 q = if [i] <+: q then none else tableOf s.tables p4 q :=
    tableAt_cut h.inv.separate (p := []) rfl (child_eq_none PageTableEntry.new_present _)
  refine ⟨?_, htab⟩
  have hp4 := h.inv.root
  have htf := tableOf_frame hp4 ht
  have htp4 : t ≠ p4 := by
    rintro rfl
    exact absurd (h.inv.separate _ [] _ ht rfl) (by simp)
  have hback : ∀ q u, tableOf s'.tables p4 q = some u →
      tableOf s.tables p4 q = some u ∧ u ≠ t ∧ (q ≠ [] → u ≠ p4) := by
    intro q u hu
    rw [htab] at hu
    split at hu
    next => cases hu
    next hq =>
      refine ⟨hu, ?_, ?_⟩
      · rintro rfl
        exact hq (h.inv.separate _ _ _ hu ht ▸ prefix_refl _)
      · rintro hne rfl
        exact hne (h.inv.separate _ [] _ hu rfl)
  -- The counters before and after: only that of the P4 changes.
  obtain ⟨c, hc⟩ := isSome_iff_exists.mp h.counted
  have hok := h.inv.counts (c.raise b) (by rw [MmState.raise, hc]; rfl)
  obtain ⟨k, hk⟩ : ∃ k, s'.counts = some k := by
    rw [← isSome_iff_exists, ← h.counted]
    exact isSome_bumpTableCount _ _ _
  have hlen : k.len = c.len := len_bumpTableCount (hc ▸ hk : bumpTableCount (some c) p4 (-1) = _)
  have hbase : ∀ f : PhysAddr, f.Frame → f ≠ p4 → k.base f.pfn = c.base f.pfn := by
    intro f hf hne
    have hsame := countOf_bump (s := s) hp4 hf hne (-1) s' rfl
    rw [MmState.countOf, MmState.countOf, hk, hc] at hsame
    exact Option.some.inj hsame
  -- The counter of the frame given back is zero without help, and that of the P4 is
  -- brought back to zero.
  have hcount : c.base t.pfn = 0 := by
    have hzero := (h.tableEmpty_shared hi ht).mpr hempty
    have hlt := (hok.table [i] t (by simp) ht).1
    simp only [PageTableCountTable.raise] at hlt
    simpa only [MmState.tableEmpty, hc, tableCount, bind_some, if_pos hlt,
      getD_some, beq_iff_eq] using hzero
  let b' := update (update b t.pfn 0) p4.pfn (-k.base p4.pfn)
  have hb' : ∀ f : PhysAddr, f.Frame → f ≠ t → f ≠ p4 → b' f.pfn = b f.pfn := by
    intro f hf hft hfp
    simp only [b']
    rw [update_of_ne fun heq => hfp (hf.pfn_inj hp4 heq),
      update_of_ne fun heq => hft (hf.pfn_inj htf heq)]
  have hb't : b' t.pfn = 0 := by
    simp only [b']
    rw [update_of_ne fun heq => htp4 (htf.pfn_inj hp4 heq), update_self]
  have hheld : A.held s'.alloc = A.held s.alloc \ {t} := A.deallocate s.alloc t
  refine ⟨b', ⟨hp4, h.inv.separate.of_tableAt_imp fun q u hu => (hback q u hu).1,
    fun q u hu => ?_, fun k' hk' => ?_⟩, by rw [hk]; rfl, fun j hj => ?_,
    fun q u hne hK hu => ?_, fun f hf hnot => ?_⟩
  · obtain ⟨hu', hut, -⟩ := hback q u hu
    change u ∈ A.held s'.alloc
    rw [hheld]
    exact ⟨h.inv.held q u hu', hut⟩
  · rw [MmState.raise, hk] at hk'
    cases hk'
    change CountsOk _ p4 s'.tables (A.held s'.alloc) _
    rw [hheld]
    refine hok.cut hp4 hback (fun u hu => update_of_ne hu _ _) hlen ?_ ?_ ?_
    · simp only [PageTableCountTable.raise, b', update_self]
      exact UInt16.add_right_neg _
    · simp only [PageTableCountTable.raise]
      rw [hb't, hbase t htf htp4, hcount]
      rfl
    · intro f hf hft hfp
      simp only [PageTableCountTable.raise]
      rw [hb' f hf hft hfp, hbase f hf hfp]
  · obtain ⟨u, hu, hbu⟩ := h.shared j hj.1
    have hu' : tableOf s'.tables p4 [j] = some u := by
      rw [htab, if_neg, hu]
      intro hpre
      exact hj.2 (by simpa [eq_comm] using hpre)
    obtain ⟨-, hut, hu4⟩ := hback [j] u hu'
    exact ⟨u, hu', (hb' u (tableOf_frame hp4 hu) hut (hu4 (by simp))).trans hbu⟩
  · obtain ⟨hu', hut, hu4⟩ := hback q u hu
    rw [hb' u (tableOf_frame hp4 hu') hut (hu4 hne)]
    refine h.other q u hne (fun j hj => ?_) hu'
    rintro rfl
    by_cases hji : j = i
    · rw [hji, htab, if_pos (prefix_refl _)] at hu
      cases hu
    · exact hK j ⟨hj, hji⟩ rfl
  · by_cases hft : f = t
    · rw [hft, hb't]
    have hnot' : f ∉ A.held s.alloc := fun hmem => hnot (hheld ▸ ⟨hmem, hft⟩)
    have hf4 : f ≠ p4 := by
      rintro rfl
      exact hnot' (h.inv.held [] f rfl)
    rw [hb' f hf hft hf4, h.free f hf hnot']

theorem with_rmap (m : Rmap) : SharedInv A p4 K b { s with rmap := m } :=
  ⟨h.inv.with_rmap m, h.counted, h.shared, h.other, h.free⟩

end

end SharedInv

theorem isSome_leafOf (ht : tableOf T p4 q = some t) (j : Fin 512) :
    (leafOf T p4 q j).isSome = tableFormat.leaf q.length (T t j) := by
  rw [leafOf, leafAt, ← tableOf, ht, map_some, filter_some]
  cases tableFormat.leaf q.length (T t j) <;> rfl

/-- After the leaf at `i` was cleared the table has none, if that was its only one. -/
theorem leafCount_clear {t : PageTable} (hi : tableFormat.leaf d (t i) = true) :
    leafCount d (update t i .new) = 0 ↔ ∀ j, tableFormat.leaf d (t j) = true ↔ j = i := by
  rw [leafCount, Finset.card_eq_zero, Finset.filter_eq_empty_iff]
  constructor
  · refine fun h j => ⟨fun hj => ?_, fun hji => hji ▸ hi⟩
    by_contra hji
    refine h (Finset.mem_univ j) ?_
    rwa [update_of_ne hji]
  · intro h j _
    by_cases hji : j = i
    · rw [hji, update_self, leaf_eq_false PageTableEntry.new_present]
      exact Bool.false_ne_true
    · rw [update_of_ne hji]
      exact fun hj => hji ((h j).mp hj)

theorem unmapPageInner_giant (h3 : tableOf s.tables p4 [page.p4Index] = some p3)
    (hleaf : tableFormat.leaf 1 (s.tables p3 page.p3Index) = true) :
    (unmapPageInner A p4 page s).1 = .ok (s.tables p3 page.p3Index).addr := by
  have hp := present_of_tableOf h3
  obtain rfl := Option.some.inj ((tableOf_of_present hp).symm.trans h3)
  simp only [tableFormat, Bool.and_eq_true] at hleaf
  simp [unmapPageInner, hp, hleaf.1, hleaf.2]

/-- `unmap_page` keeps all tables, or the page is the last 1 GiB page of a shared P3 table
and the step cuts that table off. -/
theorem SharedInv.unmapPageInner (h : SharedInv A p4 K b s) {r : Except MapFault PhysAddr}
    (hrun : unmapPageInner A p4 page s = (r, s')) :
    (¬ LastGiant K p4 page s ∧ SharedInv A p4 K b s' ∧
        ∀ q, tableOf s'.tables p4 q = tableOf s.tables p4 q) ∨
      (∃ p3 b', LastGiant K p4 page s ∧ tableOf s.tables p4 [page.p4Index] = some p3 ∧
        SharedInv A p4 (K \ {page.p4Index}) b' s' ∧
        (∀ q, tableOf s'.tables p4 q =
          if [page.p4Index] <+: q then none else tableOf s.tables p4 q) ∧
        s'.tables p3 = update (s.tables p3) page.p3Index .new) := by
  -- Below a P2 table there is no 1 GiB page.
  have hnot : ∀ p2, tableOf s.tables p4 [page.p4Index, page.p3Index] = some p2 →
      ¬ LastGiant K p4 page s := by
    rintro p2 h2 ⟨-, hlast⟩
    obtain ⟨e, he⟩ := isSome_iff_exists.mp ((hlast page.p3Index).mpr rfl)
    have hnone := tableOf_under_leaf he []
    rw [append_nil] at hnone
    cases h2.symm.trans hnone
  have hdeep : ∀ i j, ∀ q : List (Fin 512), ∀ k ∈ K, i :: j :: q ≠ [k] := by simp
  cases unmapStep_of_run hrun with
  | missing =>
    refine .inl ⟨?_, h, fun _ => rfl⟩
    rintro ⟨hK, hlast⟩
    obtain ⟨p3, h3, -⟩ := h.shared _ hK
    have hok := unmapPageInner_giant (A := A) h3
      ((isSome_leafOf h3 page.p3Index).symm.trans ((hlast page.p3Index).mpr rfl))
    rw [hrun] at hok
    cases hok
  | @giant p3 h3 hleaf =>
    obtain ⟨h₁, htab₁⟩ := h.clearLeaf h3 hleaf
    have h3₁ := (htab₁ _).trans h3
    have hrow : ((s.setEntry p3 page.p3Index .new).decCount p3).tables p3 =
        update (s.tables p3) page.p3Index .new := update_self _ _ _
    by_cases hK : page.p4Index ∈ K
    · -- The cleared table looks empty exactly when this was its last leaf.
      have hempty : ((s.setEntry p3 page.p3Index .new).decCount p3).tableEmpty p3 = true ↔
          LastGiant K p4 page s := by
        rw [h₁.tableEmpty_shared hK h3₁, hrow, leafCount_clear hleaf]
        simp [LastGiant, hK, isSome_leafOf h3]
      rw [reclaimTable]
      split
      next htrue =>
        obtain ⟨⟨b', hdrop⟩, hcut⟩ := h₁.drop hK h3₁ ((h₁.tableEmpty_shared hK h3₁).mp htrue)
        have haddr : (((s.setEntry p3 page.p3Index .new).decCount p3).tables p4
            page.p4Index).addr = p3 :=
          Option.some.inj ((tableOf_of_present (present_of_tableOf h3₁)).symm.trans h3₁)
        have hp3 : p3 ≠ p4 := by
          rintro rfl
          exact absurd (h.inv.separate _ [] _ h3 rfl) (by simp)
        rw [haddr]
        refine .inr ⟨p3, b', hempty.mp htrue, h3, hdrop, fun q => ?_, ?_⟩
        · rw [id, hcut, htab₁]
        · exact (update_of_ne hp3 _ _).trans hrow
      next hfalse => exact .inl ⟨fun hlast => hfalse (hempty.mpr hlast), h₁, htab₁⟩
    · have hempty := h₁.tableEmpty_other (by simp) (fun i hi heq => hK (by simp_all)) h3₁
      rw [reclaimTable, hempty]
      exact .inl ⟨fun hlast => hK hlast.1, h₁, htab₁⟩
  | large h3 h2 hleaf =>
    obtain ⟨h₁, htab₁⟩ := h.clearLeaf h2 hleaf
    have hempty := h₁.tableEmpty_other (by simp) (hdeep _ _ _) ((htab₁ _).trans h2)
    rw [reclaimTable, hempty]
    exact .inl ⟨hnot _ h2, h₁, htab₁⟩
  | @small p3 p2 p1 h3 h2 h1 hleaf =>
    obtain ⟨h₁, htab₁⟩ := h.clearLeaf h1 hleaf
    replace h₁ := h₁.with_rmap (PageLevel.small.forget s.rmap (s.tables p1 page.p1Index) p4 page)
    have hempty := h₁.tableEmpty_other (by simp) (hdeep _ _ _) ((htab₁ _).trans h1)
    rw [reclaimTable, hempty]
    exact .inl ⟨hnot _ h2, h₁, htab₁⟩

/-- The slots of the loop are the upper half of the P4. -/
theorem mem_upperHalf (i : Fin 512) : i ∈ (List.finRange 512).drop 256 ↔ 256 ≤ i.val := by
  rw [mem_drop_iff_getElem]
  simp only [getElem_finRange, length_finRange]
  constructor
  · rintro ⟨j, hj, rfl⟩
    simp
  · intro hi
    exact ⟨i.val - 256, by omega, by ext; simp; omega⟩

/-- One call keeps the invariant, for the slots that still have their table. -/
theorem SharedInv.performCall (h : SharedInv A p4 K b s) (hc : c.WellFormed)
    {r : Except MapError (Option PhysAddr)} (hrun : performCall A p4 c s = (r.mapError .err, s')) :
    ∃ b', SharedInv A p4 (K ∩ {i | (s'.tables p4 i).present = true}) b' s' := by
  cases c with
  | map page frame flags =>
    rcases hm : BoruixKernel.mapPageInner A p4 page frame flags s with ⟨res, s₁⟩
    simp only [BoruixKernel.performCall, hm, Prod.mk.injEq] at hrun
    obtain ⟨hres, rfl⟩ := hrun
    have h' := h.mapPageInner hc.2.2 hm (by rintro msg rfl; cases r <;> cases hres)
    exact ⟨b, by rwa [h'.present]⟩
  | unmap page =>
    rcases hu : BoruixKernel.unmapPageInner A p4 page s with ⟨res, s₁⟩
    simp only [BoruixKernel.performCall, hu, Prod.mk.injEq] at hrun
    obtain ⟨-, rfl⟩ := hrun
    rcases h.unmapPageInner hu with ⟨-, h', -⟩ | ⟨p3, b', -, -, h', htab, -⟩
    · exact ⟨b, by rwa [h'.present]⟩
    · refine ⟨b', ?_⟩
      have hgone : (s₁.tables p4 page.p4Index).present = false := by
        by_contra hp
        have hnone := htab [page.p4Index]
        rw [if_pos (prefix_refl _),
          tableOf_of_present (Bool.not_eq_false _ ▸ hp)] at hnone
        cases hnone
      convert h' using 1
      refine Set.Subset.antisymm (fun i hi => ⟨hi.1, ?_⟩) fun i hi => ⟨hi.1, ?_⟩
      · rintro rfl
        cases hgone.symm.trans hi.2
      · rw [← h'.present] at hi
        exact hi.2

/-- The invariant along a run after `init_kernel_shared_p4`. -/
theorem MapRun.sharedInv {h : List (MapEvent σ)} (h₀ : MapperInv A p4 s₀)
    (hcounts : s₀.counts.isSome = true) (hinit : initKernelSharedP4 A p4 s₀ = (.ok (), s₁))
    (hrun : MapRun A p4 s₁ h s) :
    ∃ b, SharedInv A p4 (sharedSlots p4 s₀ h) b s := by
  induction hrun with
  | nil =>
    unfold initKernelSharedP4 at hinit
    split at hinit
    next => cases hinit
    next =>
      obtain ⟨b, hb⟩ := (h₀.sharedInv hcounts).of_initSharedSlots hinit
      refine ⟨b, ?_⟩
      convert hb using 1
      ext i
      simp [sharedSlots, Set.mem_ofPred_eq, not_mem_nil, implies_true, and_true, Set.empty_union, mem_upperHalf]
  | @snoc h s c r s' _ hc hstep ih =>
    obtain ⟨b, hb⟩ := ih
    obtain ⟨b', hb'⟩ := hb.performCall hc hstep
    refine ⟨b', ?_⟩
    convert hb' using 1
    ext i
    simp [sharedSlots, Set.mem_ofPred_eq, Set.mem_inter_iff, mem_append, or_imp, forall_and, forall_eq, and_assoc]

/-- After `init_kernel_shared_p4` and any calls of the mapper, `unmap_page` discards a
table in use exactly when the page is the only 1 GiB page of a P3 table of
`init_kernel_shared_p4` that also links a P2 table. -/
theorem MapRun.discardsInUse_iff {s₀ s₁ : MmState σ} (h₀ : MapperInv A p4 s₀)
    (hcounts : s₀.counts.isSome = true) (hinit : initKernelSharedP4 A p4 s₀ = (.ok (), s₁))
    {h : List (MapEvent σ)} (hrun : MapRun A p4 s₁ h s) {page : VirtAddr}
    {r : Except MapFault PhysAddr} (hun : unmapPageInner A p4 page s = (r, s')) :
    DiscardsInUse A p4 s s' ↔ LastGiantOfLinked (sharedSlots p4 s₀ h) p4 page s := by
  obtain ⟨b, hb⟩ := hrun.sharedInv h₀ hcounts hinit
  rcases hb.unmapPageInner hun with ⟨hnot, hb', htab⟩ | ⟨p3, b', hlast, h3, hb', htab, hrow⟩
  · refine iff_of_false ?_ fun hlinked => hnot hlinked.1
    rintro ⟨q, t, hq, hgone | hgone, -⟩
    · exact hgone ((htab q).trans hq)
    · exact hgone (hb'.inv.held q t ((htab q).trans hq))
  constructor
  · rintro ⟨q, t, hq, hgone, j, hj⟩
    refine ⟨hlast, ?_⟩
    -- The discarded table is the shared one or stands below it.
    have hunder : [page.p4Index] <+: q := by
      by_contra hoff
      have hq' : tableOf s'.tables p4 q = some t := by rw [htab, if_neg hoff, hq]
      exact hgone.elim (fun hne => hne hq') fun hfree => hfree (hb'.inv.held q t hq')
    obtain ⟨rest, rfl⟩ := hunder
    cases rest with
    | nil =>
      obtain rfl := Option.some.inj (h3.symm.trans hq)
      rw [hrow] at hj
      have hji : j ≠ page.p3Index := by
        rintro rfl
        rw [update_self, PageTableEntry.new_present] at hj
        cases hj
      rw [update_of_ne hji] at hj
      -- A present entry that is no leaf links a table.
      have hleaf : tableFormat.leaf 1 (s.tables p3 j) ≠ true := fun hleaf =>
        hji ((hlast.2 j).mp ((isSome_leafOf h3 j).trans hleaf))
      have hhuge : (s.tables p3 j).huge = false := by
        simpa [tableFormat, hj] using hleaf
      refine ⟨j, (s.tables p3 j).addr, (tableOf_snoc _ _ [page.p4Index] j).trans ?_⟩
      rw [h3, bind_some]
      exact child_of_present hj hhuge (by simp)
    | cons k rest =>
      refine ⟨k, ?_⟩
      by_contra hnone
      rw [not_exists, ← eq_none_iff_forall_ne_some] at hnone
      have hrest := tableAt_eq_none_of_append tableFormat hnone rest
      cases hq.symm.trans hrest
  · rintro ⟨-, j, p2, h2⟩
    refine ⟨[page.p4Index], p3, h3, .inl ?_, j, ?_⟩
    · rw [htab, if_pos (prefix_refl _)]
      exact some_ne_none p3 |>.symm
    · have hchild : tableFormat.child 1 (s.tables p3 j) = some p2 := by
        rw [← singleton_append, tableOf_snoc, h3] at h2
        exact h2
      have hji : j ≠ page.p3Index := by
        rintro rfl
        have hleaf := (isSome_leafOf h3 page.p3Index).symm.trans ((hlast.2 _).mpr rfl)
        rw [length_singleton, leaf_of_child hchild] at hleaf
        cases hleaf
      rw [hrow, update_of_ne hji]
      exact (of_child hchild).1

end Shared

/-! ## A kernel region that is lost -/

/-- The frames the bump allocator has handed out after `k` rounds. -/
def sharedFrames : Nat → List PhysAddr
  | 0 => [.ofPfn 1]
  | k + 1 => .ofPfn (k + 2) :: sharedFrames k

theorem sharedFrames_below : ∀ k, k ≤ 256 → ∀ p ∈ sharedFrames k, p.pfn < k + 2
  | 0, _ => by decide
  | k + 1, hk => by
    intro p hp
    rcases mem_cons.mp hp with rfl | hp
    · rw [PhysAddr.pfn_ofPfn (by omega)]
      omega
    · exact Nat.lt_succ_of_lt (sharedFrames_below k (by omega) p hp)

/-- The bump allocator's state after `k` rounds of `init_kernel_shared_p4`: the first `k`
slots of the upper half link the frames from 2 on. -/
def sharedState (k : Nat) (hk : k ≤ 256) : MmState BumpState :=
  { bumpStart with
    tables := update bumpStart.tables (.ofPfn 1) fun i =>
      if 256 ≤ i.val ∧ i.val < 256 + k then .pack (.ofPfn (i.val - 254)) linkFlags else .new
    alloc := ⟨k + 2, sharedFrames k, sharedFrames_below k hk⟩ }

theorem initSharedSlot_sharedState {k : Nat} (hk : k < 256) :
    initSharedSlot bumpAllocator (.ofPfn 1) ⟨256 + k, by omega⟩ (sharedState k hk.le) =
      (.ok (), sharedState (k + 1) hk) := by
  have hfree : ((sharedState k hk.le).tables (.ofPfn 1) ⟨256 + k, by omega⟩).present = false := by
    simp [sharedState]
  have hne : PhysAddr.ofPfn (k + 2) ≠ .ofPfn 1 := by
    intro heq
    have hpfn := congrArg PhysAddr.pfn heq
    rw [PhysAddr.pfn_ofPfn (by omega), PhysAddr.pfn_ofPfn (by omega)] at hpfn
    omega
  have hframe : (PhysAddr.ofPfn (k + 2)).isAligned 4096 = true := by
    have hnat := PhysAddr.toNat_ofPfn (n := k + 2) (by omega)
    exact PhysAddr.Frame.isAligned ⟨by omega, by omega⟩
  have halloc : bumpAllocator.allocateFrame (sharedState k hk.le).alloc =
      (some (.ofPfn (k + 2)), (sharedState (k + 1) hk).alloc) :=
    dif_pos (by simp only [sharedState]; omega)
  rw [initSharedSlot, if_neg (by rw [hfree]; exact Bool.false_ne_true), halloc]
  simp only [MmState.setAddr, hframe, if_true, Prod.mk.injEq, true_and]
  -- The frame was zero already, and the P4 gets one more link.
  simp only [MmState.setEntry, MmState.zeroFrame, sharedState, MmState.mk.injEq, true_and, and_true]
  funext u j
  rw [set_apply]
  by_cases hu : u = .ofPfn 1
  · subst hu
    simp only [true_and, update_self, update_of_ne hne.symm]
    by_cases hj : j = ⟨256 + k, by omega⟩
    · subst hj
      dsimp only
      rw [if_pos rfl, if_pos (by omega), show 256 + k - 254 = k + 2 by omega]
    · have hjv : j.val ≠ 256 + k := fun hval => hj (Fin.ext hval)
      rw [if_neg hj]
      congr 1
      simp only [eq_iff_iff]
      omega
  · simp only [hu, false_and, if_false, update_of_ne hu]
    by_cases hc : u = .ofPfn (k + 2)
    · rw [hc, update_self]
      rfl
    · rw [update_of_ne hc, update_of_ne hu]

theorem initSharedSlots_sharedState (n : Nat) : ∀ k (hk : k ≤ 256), k + n = 256 →
    initSharedSlots bumpAllocator (.ofPfn 1) ((List.finRange 512).drop (256 + k))
      (sharedState k hk) = (.ok (), sharedState 256 le_rfl) := by
  induction n with
  | zero =>
    rintro k hk rfl
    rw [drop_eq_nil_of_le (by simp)]
    rfl
  | succ n ih =>
    intro k hk hkn
    have hlt : k < 256 := by omega
    rw [drop_eq_getElem_cons (by simp; omega), initSharedSlots]
    simp only [getElem_finRange]
    have hstep := initSharedSlot_sharedState hlt
    simp only [Fin.cast_mk, hstep, MapResult.andThen]
    exact ih (k + 1) hlt (by omega)

/-- The bump allocator's state after `init_kernel_shared_p4`. -/
def sharedStart : MmState BumpState := sharedState 256 le_rfl

theorem init_bumpStart :
    initKernelSharedP4 bumpAllocator (.ofPfn 1) bumpStart = (.ok (), sharedStart) := by
  have hstart : bumpStart = sharedState 0 (by omega) := by
    have htab : bumpStart.tables = update bumpStart.tables (.ofPfn 1) fun i : Fin 512 =>
      if 256 ≤ i.val ∧ i.val < 256 + 0 then .pack (.ofPfn (i.val - 254)) linkFlags else .new := by
      rw [eq_comm, update_eq_self_iff]
      funext i
      exact if_neg (by omega)
    rw [sharedState, ← htab]
    rfl
  change initSharedSlots bumpAllocator (.ofPfn 1) ((List.finRange 512).drop 256) bumpStart = _
  rw [hstart]
  exact initSharedSlots_sharedState 256 0 (by omega) rfl

/-- Map a 1 GiB page at the bottom of the upper half. -/
def giantPage : MapCall := .map ⟨0xffff800000000000⟩ ⟨0x40000000⟩ (.WRITABLE ||| .HUGE_PAGE)

/-- Map a 4 KiB page in the next GiB, under the same P3 table. -/
def kernelPage : MapCall := .map ⟨0xffff800040000000⟩ ⟨0x300000⟩ .WRITABLE

def withGiant : MmState BumpState := (performCall bumpAllocator (.ofPfn 1) giantPage sharedStart).2

def withBoth : MmState BumpState := (performCall bumpAllocator (.ofPfn 1) kernelPage withGiant).2

/-- One more call, given its result. -/
theorem MapRun.next {σ : Type} {A : FrameAllocator σ} {p4 : PhysAddr} {s₀ s : MmState σ}
    {h : List (MapEvent σ)} (hrun : MapRun A p4 s₀ h s) {c : MapCall} (hc : c.WellFormed)
    {r : Except MapError (Option PhysAddr)} (hr : (performCall A p4 c s).1 = r.mapError .err) :
    MapRun A p4 s₀ (h ++ [⟨s, c, r, (performCall A p4 c s).2⟩]) (performCall A p4 c s).2 :=
  hrun.snoc hc (Prod.ext hr rfl)

theorem withBoth_run : MapRun bumpAllocator (.ofPfn 1) sharedStart
      [⟨sharedStart, giantPage, .ok none, withGiant⟩, ⟨withGiant, kernelPage, .ok none, withBoth⟩]
      withBoth := by
  have hgiant : (performCall bumpAllocator (.ofPfn 1) giantPage sharedStart).1 =
      Except.mapError .err (.ok none) := by decide +kernel
  have hkernel : (performCall bumpAllocator (.ofPfn 1) kernelPage withGiant).1 =
      Except.mapError .err (.ok none) := by decide +kernel
  have hwf : giantPage.WellFormed ∧ kernelPage.WellFormed :=
    ⟨⟨by decide, by decide, by decide⟩, by decide, by decide, by decide⟩
  exact (MapRun.nil.next hwf.1 hgiant).next hwf.2 hkernel

/-- Unmapping the 4 KiB page discards nothing. -/
theorem kernelPage_kept :
    ¬ DiscardsInUse bumpAllocator (.ofPfn 1) withBoth
      (unmapPageInner bumpAllocator (.ofPfn 1) ⟨0xffff800040000000⟩ withBoth).2 := by
  have hun : ∀ page, unmapPageInner bumpAllocator (.ofPfn 1) page withBoth = (_, _) := fun _ =>
    Prod.mk.eta.symm
  rw [MapRun.discardsInUse_iff bumpStart_emptyP4.inv rfl init_bumpStart withBoth_run (hun _)]
  rintro ⟨⟨-, hlast⟩, -⟩
  have hleaf := (hlast (VirtAddr.p3Index ⟨0xffff800040000000⟩)).mpr rfl
  revert hleaf
  decide +kernel

/-- Unmapping the 1 GiB page frees the shared P3 table, which still links the P2 table of
the 4 KiB page. -/
theorem giantPage_discards :
    MapperInv bumpAllocator (.ofPfn 1) bumpStart ∧
      initKernelSharedP4 bumpAllocator (.ofPfn 1) bumpStart = (.ok (), sharedStart) ∧
      MapRun bumpAllocator (.ofPfn 1) sharedStart
        [⟨sharedStart, giantPage, .ok none, withGiant⟩,
          ⟨withGiant, kernelPage, .ok none, withBoth⟩] withBoth ∧
      DiscardsInUse bumpAllocator (.ofPfn 1) withBoth
        (unmapPageInner bumpAllocator (.ofPfn 1) ⟨0xffff800000000000⟩ withBoth).2 := by
  refine ⟨bumpStart_emptyP4.inv, init_bumpStart, withBoth_run, [256], .ofPfn 2, ?_, .inl ?_, 1, ?_⟩
  all_goals decide +kernel

end BoruixKernel
