import BoruixKernel.Mm.MapperInvariant
import BoruixKernel.Mm.MemorySet

/-!
# The mapper refines a map of ranges

What page tables are for: a finite set of disjoint virtual ranges, each with the
physical range it maps to.  `MapRun` is a sequence of `map_page` and `unmap_page`
calls, `rangesOf` the ranges such a sequence adds and removes, and `MapRun.refines`
the relation between the two: the ranges are the leaves of the trie.  From it
translation is the lookup in the ranges (`Refines.translate_eq`).

A sequence only holds calls that returned.  `performCall_returns` says when a call
does: on a page-aligned frame, unless the allocator hands out the frame at address
zero.
-/

namespace BoruixKernel

open PointerTrie List

/-! ## Ranges -/

/-- A virtual range and the frame it maps to. -/
structure PageRange where
  start : VirtAddr
  level : PageLevel
  frame : PhysAddr
deriving DecidableEq

namespace PageRange

def contains (r : PageRange) (v : VirtAddr) : Bool :=
  r.start.asU64.toNat ≤ v.asU64.toNat && v.asU64.toNat < r.start.asU64.toNat + r.level.size

/-- The physical address of an address of the range. -/
def apply (r : PageRange) (v : VirtAddr) : PhysAddr :=
  ⟨r.frame.asU64 + (v.asU64 - r.start.asU64)⟩

/-- No address is in both ranges. -/
def Disjoint (r r' : PageRange) : Prop := ∀ v, ¬ (r.contains v = true ∧ r'.contains v = true)

/-- A range starts at a canonical address that is a multiple of its size. -/
def Valid (r : PageRange) : Prop :=
  r.start.Canonical ∧ r.start.asU64.toNat % r.level.size = 0

/-- Where the leaf of a range stands. -/
def slot (r : PageRange) : List (Fin 512) × Fin 512 := (r.level.path r.start, r.level.index r.start)

end PageRange

def lookupRange (M : List PageRange) (v : VirtAddr) : Option PhysAddr :=
  (M.find? (·.contains v)).map (·.apply v)

/-! ## Addresses and slots -/

theorem PageLevel.path_length (l : PageLevel) (v w : VirtAddr)
    (h : l.path v = l'.path w) : l = l' := by
  cases l <;> cases l' <;> simp [PageLevel.path] at h ⊢

/-- The halves of the canonical addresses, as numbers. -/
def CanonicalNat (x : Nat) : Prop := x < 2 ^ 47 ∨ 2 ^ 64 - 2 ^ 47 ≤ x ∧ x < 2 ^ 64

/-- The page number of a canonical address follows from its table indices: bits 48 to
63 repeat bit 47. -/
theorem page_eq_of_digits (hx : CanonicalNat x) (hy : CanonicalNat y) :
    (x / 2 ^ 39 % 512 = y / 2 ^ 39 % 512 ∧ x / 2 ^ 30 % 512 = y / 2 ^ 30 % 512 →
      x / 2 ^ 30 = y / 2 ^ 30) ∧
    (x / 2 ^ 30 = y / 2 ^ 30 → x / 2 ^ 21 % 512 = y / 2 ^ 21 % 512 → x / 2 ^ 21 = y / 2 ^ 21) ∧
    (x / 2 ^ 21 = y / 2 ^ 21 → x / 2 ^ 12 % 512 = y / 2 ^ 12 % 512 → x / 2 ^ 12 = y / 2 ^ 12) := by
  refine ⟨?_, ?_, ?_⟩
  · unfold CanonicalNat at hx hy
    rintro ⟨h1, h2⟩
    omega
  · intro h1 h2
    omega
  · intro h1 h2
    omega

/-- Canonical addresses have the same slot exactly when they are on the same page. -/
theorem PageLevel.slot_eq_iff (l : PageLevel) (hv : v.Canonical) (hw : w.Canonical) :
    (l.path v = l.path w ∧ l.index v = l.index w) ↔
      v.asU64.toNat / l.size = w.asU64.toNat / l.size := by
  have hidx : ∀ (k : UInt64), k.toNat < 64 → (v.tableIndex k = w.tableIndex k ↔
      v.asU64.toNat / 2 ^ k.toNat % 512 = w.asU64.toNat / 2 ^ k.toNat % 512) := by
    intro k hk
    rw [Fin.ext_iff, VirtAddr.tableIndex_val _ _ hk, VirtAddr.tableIndex_val _ _ hk]
  have h4 : v.p4Index = w.p4Index ↔ _ := hidx 39 (by decide)
  have h3 : v.p3Index = w.p3Index ↔ _ := hidx 30 (by decide)
  have h2 : v.p2Index = w.p2Index ↔ _ := hidx 21 (by decide)
  have h1 : v.p1Index = w.p1Index ↔ _ := hidx 12 (by decide)
  simp only [UInt64.reduceToNat] at h4 h3 h2 h1
  have hx : CanonicalNat v.asU64.toNat := hv.imp id fun h => ⟨h, v.asU64.toNat_lt⟩
  have hy : CanonicalNat w.asU64.toNat := hw.imp id fun h => ⟨h, w.asU64.toNat_lt⟩
  obtain ⟨hgiant, hlarge, hsmall⟩ := page_eq_of_digits hx hy
  -- A page number determines the table indices above it.
  have hup : ∀ j k : Nat, j ≤ k → v.asU64.toNat / 2 ^ j = w.asU64.toNat / 2 ^ j →
      v.asU64.toNat / 2 ^ k = w.asU64.toNat / 2 ^ k := by
    intro j k hjk h
    obtain ⟨d, rfl⟩ := Nat.exists_eq_add_of_le hjk
    rw [Nat.pow_add, ← Nat.div_div_eq_div_mul, ← Nat.div_div_eq_div_mul, h]
  cases l with
  | small =>
    simp only [path, index, size, bits, List.cons.injEq, and_true, h4, h3, h2, h1]
    constructor
    · rintro ⟨⟨d3, d2, d1⟩, d0⟩
      exact hsmall (hlarge (hgiant ⟨d3, d2⟩) d1) d0
    · intro h
      rw [hup 12 39 (by omega) h, hup 12 30 (by omega) h, hup 12 21 (by omega) h, h]
      simp
  | large =>
    simp only [path, index, size, bits, List.cons.injEq, and_true, h4, h3, h2]
    constructor
    · rintro ⟨⟨d3, d2⟩, d1⟩
      exact hlarge (hgiant ⟨d3, d2⟩) d1
    · intro h
      rw [hup 21 39 (by omega) h, hup 21 30 (by omega) h, h]
      simp
  | giant =>
    simp only [path, index, size, bits, List.cons.injEq, and_true, h4, h3]
    constructor
    · exact hgiant
    · intro h
      rw [hup 30 39 (by omega) h, h]
      simp

variable {r : PageRange} {v : VirtAddr}

/-- The addresses of a range are those with its slot. -/
theorem PageRange.Valid.contains_iff (hr : r.Valid) (hv : v.Canonical) :
    r.contains v = true ↔ (r.level.path v, r.level.index v) = r.slot := by
  rw [slot, Prod.mk.injEq, r.level.slot_eq_iff hv hr.1]
  have hmod := hr.2
  have hpos : 0 < r.level.size := Nat.two_pow_pos _
  simp only [contains, Bool.and_eq_true, decide_eq_true_eq]
  generalize r.level.size = n at *
  rw [Nat.div_eq_iff hpos, Nat.div_mul_cancel (Nat.dvd_of_mod_eq_zero hmod)]
  omega

/-- A range lies in one half of the canonical addresses. -/
theorem PageRange.Valid.canonical (hr : r.Valid) (hv : r.contains v = true) : v.Canonical := by
  obtain ⟨start, level, frame⟩ := r
  obtain ⟨hstart, hmod⟩ := hr
  have hlt := v.asU64.toNat_lt
  simp only [contains, Bool.and_eq_true, decide_eq_true_eq] at hv
  simp only [VirtAddr.Canonical] at hstart ⊢
  cases level <;> simp only [PageLevel.size, PageLevel.bits] at hv hmod <;> omega

theorem PageLevel.toNat_offset (l : PageLevel) (v : VirtAddr) :
    (l.offset v).toNat = v.asU64.toNat % l.size := by
  have hmask : ∀ (m : UInt64) (k : Nat), m.toNat = 2 ^ k - 1 →
      (v.asU64 &&& m).toNat = v.asU64.toNat % 2 ^ k := by
    intro m k hm
    rw [UInt64.toNat_and, hm, Nat.and_two_pow_sub_one_eq_mod]
  cases l with
  | small => exact hmask _ 12 (by decide)
  | large => exact hmask _ 21 (by decide)
  | giant => exact hmask _ 30 (by decide)

/-- The offset of an address in its page is its distance from the start of the range. -/
theorem PageRange.Valid.offset_eq (hr : r.Valid) (hv : r.contains v = true) :
    r.level.offset v = v.asU64 - r.start.asU64 := by
  obtain ⟨start, level, frame⟩ := r
  have hmod := hr.2
  simp only [contains, Bool.and_eq_true, decide_eq_true_eq] at hv
  apply UInt64.toNat_inj.mp
  rw [UInt64.toNat_sub_of_le _ _ (UInt64.le_iff_toNat_le.mpr hv.1), PageLevel.toNat_offset]
  cases level <;> simp only [PageLevel.size, PageLevel.bits] at hv hmod ⊢ <;> omega

/-! ## Refinement -/

/-- The ranges are the leaves of the trie. -/
structure Refines (M : List PageRange) (T : PhysAddr → PageTable) (p4 : PhysAddr) : Prop where
  valid : ∀ r ∈ M, r.Valid
  slots : (M.map PageRange.slot).Nodup
  leaf_iff : ∀ q i a, (∃ e, leafOf T p4 q i = some e ∧ e.addr = a) ↔
    ∃ r ∈ M, r.slot = (q, i) ∧ r.frame = a

namespace Refines

variable {M : List PageRange}

section

variable (h : Refines M T p4)

include h

theorem leaf (hr : r ∈ M) : ∃ e, leafOf T p4 r.slot.1 r.slot.2 = some e ∧ e.addr = r.frame :=
  (h.leaf_iff _ _ _).mpr ⟨r, hr, rfl, rfl⟩

/-- The leaf of a range maps the addresses of the range. -/
theorem pageLeaf (hr : r ∈ M) (hv : r.contains v = true) :
    ∃ e, BoruixKernel.pageLeaf T p4 r.level v = some e ∧ e.addr = r.frame := by
  have hslot := ((h.valid r hr).contains_iff ((h.valid r hr).canonical hv)).mp hv
  obtain ⟨e, he, ha⟩ := h.leaf hr
  rw [← hslot] at he
  exact ⟨e, he, ha⟩

theorem eq_of_slot (hr : r ∈ M) (hr' : r' ∈ M) (hslot : r.slot = r'.slot) : r = r' :=
  inj_on_of_nodup_map h.slots hr hr' hslot

/-- An address is in one range only. -/
theorem eq_of_contains (hr : r ∈ M) (hr' : r' ∈ M) (hv : r.contains v = true)
    (hv' : r'.contains v = true) : r = r' := by
  obtain ⟨e, he, -⟩ := h.pageLeaf hr hv
  obtain ⟨e', he', -⟩ := h.pageLeaf hr' hv'
  have hcan := (h.valid r hr).canonical hv
  apply h.eq_of_slot hr hr'
  rw [← ((h.valid r hr).contains_iff hcan).mp hv, ← ((h.valid r' hr').contains_iff hcan).mp hv',
    pageLeaf_unique he he']

theorem disjoint : M.Pairwise PageRange.Disjoint := by
  have hne : M.Pairwise (· ≠ ·) := (List.Nodup.of_map _ h.slots)
  refine hne.imp_of_mem fun {r r'} hr hr' hrr' v ⟨hv, hv'⟩ => ?_
  exact hrr' (h.eq_of_contains hr hr' hv hv')

/-- Translation is the lookup in the ranges. -/
theorem translate_eq (hv : v.Canonical) : OffsetMapper.translate T p4 v = lookupRange M v := by
  unfold lookupRange
  cases hfind : M.find? (·.contains v) with
  | some r =>
    have hr := mem_of_find?_eq_some hfind
    have hin : r.contains v = true := by simpa using find?_some hfind
    obtain ⟨e, he, ha⟩ := h.pageLeaf hr hin
    rw [translate_of_pageLeaf he, Option.map_some, PageLevel.apply, PageRange.apply, ha,
      (h.valid r hr).offset_eq hin]
  | none =>
    rw [Option.map_none]
    refine translate_eq_none fun l => ?_
    cases he : BoruixKernel.pageLeaf T p4 l v with
    | none => rfl
    | some e =>
      obtain ⟨r, hr, hslot, -⟩ := (h.leaf_iff _ _ _).mp ⟨e, he, rfl⟩
      have hl : r.level = l := PageLevel.path_length _ _ _ (congrArg Prod.fst hslot)
      subst hl
      have hin := ((h.valid r hr).contains_iff hv).mpr hslot.symm
      exact absurd hin (by simpa using find?_eq_none.mp hfind r hr)

theorem congr (hl : ∀ q i, leafOf T' p4 q i = leafOf T p4 q i) : Refines M T' p4 :=
  ⟨h.valid, h.slots, fun q i a => by rw [hl]; exact h.leaf_iff q i a⟩

theorem add (hr : r.Valid) (he : e.addr = r.frame) (hvacant : leafOf T p4 r.slot.1 r.slot.2 = none)
    (hl : ∀ q i, leafOf T' p4 q i =
      if q = r.slot.1 ∧ i = r.slot.2 then some e else leafOf T p4 q i) :
    Refines (r :: M) T' p4 := by
  refine ⟨forall_mem_cons.mpr ⟨hr, h.valid⟩, ?_, fun q i a => ?_⟩
  · rw [map_cons, nodup_cons]
    refine ⟨fun hmem => ?_, h.slots⟩
    obtain ⟨r', hr', hslot⟩ := mem_map.mp hmem
    obtain ⟨e', he', -⟩ := h.leaf hr'
    rw [hslot, hvacant] at he'
    cases he'
  · rw [hl]
    simp only [mem_cons, exists_eq_or_imp]
    split
    next hqi =>
      obtain ⟨rfl, rfl⟩ := hqi
      constructor
      · rintro ⟨_, ⟨⟩, rfl⟩
        exact .inl ⟨rfl, he.symm⟩
      · rintro (⟨-, rfl⟩ | hr')
        · exact ⟨e, rfl, he⟩
        · obtain ⟨e', he', -⟩ := (h.leaf_iff _ _ _).mpr hr'
          rw [hvacant] at he'
          cases he'
    next hqi =>
      rw [h.leaf_iff]
      constructor
      · exact .inr
      · rintro (⟨hslot, -⟩ | hr')
        · rw [hslot] at hqi
          exact absurd ⟨rfl, rfl⟩ hqi
        · exact hr'

/-- Clearing the leaf of a page removes the range that contains the page. -/
theorem remove (hpage : page.Canonical) (he : BoruixKernel.pageLeaf T p4 l page = some e)
    (hl : ∀ q i, leafOf T' p4 q i =
      if q = l.path page ∧ i = l.index page then none else leafOf T p4 q i) :
    (∃ r ∈ M, r.contains page = true ∧ r.frame = e.addr) ∧
      Refines (M.filter fun r => !r.contains page) T' p4 := by
  obtain ⟨r, hr, hslot, hframe⟩ := (h.leaf_iff _ _ _).mp ⟨e, he, rfl⟩
  have hlevel : r.level = l := PageLevel.path_length _ _ _ (congrArg Prod.fst hslot)
  have hin : r.contains page = true := by
    rw [(h.valid r hr).contains_iff hpage, hlevel, hslot]
  -- The ranges that stay are those at another slot.
  have hother : ∀ r' ∈ M, r'.contains page = false ↔ r'.slot ≠ (l.path page, l.index page) := by
    intro r' hr'
    rw [← Bool.not_eq_true, not_iff_not]
    constructor
    · intro hin'
      rw [h.eq_of_contains hr' hr hin' hin, hslot]
    · intro hslot'
      rw [h.eq_of_slot hr' hr (hslot'.trans hslot.symm), hin]
  refine ⟨⟨r, hr, hin, hframe⟩, fun r' hr' => h.valid r' (mem_filter.mp hr').1,
    h.slots.sublist (filter_sublist.map _), fun q i a => ?_⟩
  rw [hl]
  simp only [mem_filter, Bool.not_eq_true', and_assoc]
  split
  next hqi =>
    obtain ⟨rfl, rfl⟩ := hqi
    constructor
    · rintro ⟨_, ⟨⟩, _⟩
    · rintro ⟨r', hr', hout, hslot', -⟩
      exact absurd hslot' ((hother r' hr').mp hout)
  next hqi =>
    rw [h.leaf_iff]
    constructor
    · rintro ⟨r', hr', hslot', ha⟩
      refine ⟨r', hr', (hother r' hr').mpr ?_, hslot', ha⟩
      rw [hslot']
      rintro ⟨⟩
      exact hqi ⟨rfl, rfl⟩
    · rintro ⟨r', hr', -, hslot', ha⟩
      exact ⟨r', hr', hslot', ha⟩

end

end Refines

/-! ## Runs -/

inductive MapCall where
  | map (page : VirtAddr) (frame : PhysAddr) (flags : PageTableFlags)
  | unmap (page : VirtAddr)

namespace MapCall

/-- Page-aligned canonical addresses, and frames below `2^52`. -/
def WellFormed : MapCall → Prop
  | map page frame _ =>
    page.Canonical ∧ page.asU64.toNat % 4096 = 0 ∧ frame.asU64.toNat < 2 ^ 52
  | unmap page => page.Canonical ∧ page.asU64.toNat % 4096 = 0

end MapCall

section Runs

variable {σ : Type} (A : FrameAllocator σ) (p4 : PhysAddr)

/-- Perform a call; the value is the frame of an unmapped page. -/
def performCall (c : MapCall) (s : MmState σ) : MapResult σ (Option PhysAddr) :=
  match c with
  | .map page frame flags =>
    let (r, s) := mapPageInner A p4 page frame flags s
    (r.map fun _ => none, s)
  | .unmap page =>
    let (r, s) := unmapPageInner A p4 page s
    (r.map some, s)

/-- A call that returned, with the states before and after it. -/
structure MapEvent (σ : Type) where
  before : MmState σ
  call : MapCall
  result : Except MapError (Option PhysAddr)
  after : MmState σ

/-- A sequence of calls that all returned.  A call that panics ends the sequence. -/
inductive MapRun (s₀ : MmState σ) : List (MapEvent σ) → MmState σ → Prop where
  | nil : MapRun s₀ [] s₀
  | snoc {h s c r s'} : MapRun s₀ h s → c.WellFormed →
      performCall A p4 c s = (r.mapError .err, s') → MapRun s₀ (h ++ [⟨s, c, r, s'⟩]) s'

structure EmptyP4 (s : MmState σ) : Prop where
  frame : p4.Frame
  below : p4.pfn < A.totalFrames
  held : p4 ∈ A.held s.alloc
  zero : s.tables p4 = PageTable.zero
  offset : s.physOffset.isSome
  /-- The counters cover all frames, and count zero for the P4 and for every frame
  that is not in use. -/
  counts : ∀ c, s.counts = some c →
    c.len = A.totalFrames ∧ c.base p4.pfn = 0 ∧
      ∀ f : PhysAddr, f.Frame → f ∉ A.held s.alloc → c.base f.pfn = 0

end Runs

/-- What a call does to the ranges, given its result. -/
def rangesAfter {σ : Type} (M : List PageRange) (e : MapEvent σ) : List PageRange :=
  match e.call, e.result with
  | .map page frame flags, .ok _ => ⟨page, selectLevel page frame flags, frame⟩ :: M
  | .unmap page, .ok _ => M.filter fun r => !r.contains page
  | _, .error _ => M

def rangesOf {σ : Type} (h : List (MapEvent σ)) : List PageRange := h.foldl rangesAfter []

section Runs

variable {σ : Type} {A : FrameAllocator σ} {p4 : PhysAddr} {s s' s₀ : MmState σ} {c : MapCall}

/-- One call, given its result. -/
theorem MapRun.single {r : Except MapError (Option PhysAddr)} (hc : c.WellFormed)
    (hr : (performCall A p4 c s).1 = r.mapError .err) :
    MapRun A p4 s [⟨s, c, r, (performCall A p4 c s).2⟩] (performCall A p4 c s).2 :=
  .snoc .nil hc (Prod.ext hr rfl)

/-- Under an empty P4 there is no further table. -/
theorem tableOf_of_zero (h : T p4 = PageTable.zero)
    (q : List (Fin 512)) : tableOf T p4 q = if q = [] then some p4 else none := by
  cases q with
  | nil => rfl
  | cons i q =>
    simp [tableAt, descend, h, PageTable.zero, child_eq_none PageTableEntry.new_present]

theorem EmptyP4.inv (h : EmptyP4 A p4 s) : MapperInv A p4 s := by
  have htab := tableOf_of_zero h.zero
  refine ⟨h.frame, fun q q' t ht ht' => ?_, fun q t ht => ?_, fun c hc => ?_⟩
  · rw [← tableOf, htab] at ht ht'
    split at ht
    next hq =>
      split at ht'
      next hq' => rw [hq, hq']
      next => cases ht'
    next => cases ht
  · rw [htab] at ht
    split at ht
    next =>
      cases ht
      exact h.held
    next => cases ht
  · obtain ⟨hlen, hroot, hfree⟩ := h.counts c hc
    refine ⟨hlen, fun q t hne ht => ?_, hroot, hfree⟩
    rw [htab, if_neg hne] at ht
    cases ht

theorem EmptyP4.refines (h : EmptyP4 A p4 s) : Refines [] s.tables p4 := by
  refine ⟨by simp, by simp, fun q i a => ?_⟩
  constructor
  · rintro ⟨e, he, -⟩
    obtain ⟨t, ht, rfl, hleaf⟩ := leafOf_eq_some.mp he
    rw [tableOf_of_zero h.zero] at ht
    split at ht
    next =>
      cases ht
      rw [h.zero, PageTable.zero, leaf_eq_false PageTableEntry.new_present] at hleaf
      cases hleaf
    next => cases ht
  · rintro ⟨r, hr, -⟩
    cases hr

/-- One call: the invariant and the refinement are kept, an error changes no leaf, and
a successful unmapping returns the frame of the range that contains the page. -/
theorem performCall_spec (h : MapperInv A p4 s) (hM : Refines M s.tables p4) (hc : c.WellFormed)
    {r : Except MapError (Option PhysAddr)} (hrun : performCall A p4 c s = (r.mapError .err, s')) :
    MapperInv A p4 s' ∧ Refines (rangesAfter M ⟨s, c, r, s'⟩) s'.tables p4 ∧
      s'.physOffset = s.physOffset ∧
      (∀ e, r = .error e → ∀ q i, leafOf s'.tables p4 q i = leafOf s.tables p4 q i) ∧
      (∀ page frame, c = .unmap page → r = .ok frame →
        ∃ range ∈ M, range.contains page = true ∧ frame = some range.frame) := by
  cases c with
  | map page frame flags =>
    obtain ⟨hcan, halign, hlt⟩ := hc
    unfold performCall at hrun
    rcases hm : mapPageInner A p4 page frame flags s with ⟨res, s1⟩
    simp only [hm, Prod.mk.injEq] at hrun
    obtain ⟨hres, rfl⟩ := hrun
    rcases mapPageInner_spec h hlt hm with ⟨rfl, hal, hadd, -⟩ | ⟨⟨e, rfl⟩, hquiet⟩
    · cases r with
      | error e => cases hres
      | ok v =>
        refine ⟨hadd.inv, hM.add ⟨hcan, ?_⟩ (PageTableEntry.addr_pack hadd.framed _) hadd.vacant
          hadd.leaves, hadd.offset, by simp, by simp⟩
        rcases hal with hal | hal
        · rw [hal]
          exact halign
        · exact hal
    · cases r with
      | ok v => cases hres
      | error e' =>
        exact ⟨hquiet.inv, hM.congr hquiet.leaves, hquiet.offset, fun _ _ => hquiet.leaves,
          by simp⟩
  | unmap page =>
    obtain ⟨hcan, -⟩ := hc
    unfold performCall at hrun
    rcases hm : unmapPageInner A p4 page s with ⟨res, s1⟩
    simp only [hm, Prod.mk.injEq] at hrun
    obtain ⟨hres, rfl⟩ := hrun
    rcases unmapPageInner_spec h hm with ⟨l, e, rfl, hclear, -⟩ | ⟨rfl, rfl⟩
    · cases r with
      | error e => cases hres
      | ok v =>
        cases hres
        obtain ⟨⟨range, hr, hin, hframe⟩, hM'⟩ := hM.remove hcan hclear.mapped hclear.leaves
        refine ⟨hclear.inv, hM', hclear.offset, by simp, ?_⟩
        rintro _ _ ⟨⟩ ⟨⟩
        exact ⟨range, hr, hin, by rw [hframe]⟩
    · cases r with
      | ok v => cases hres
      | error e' => exact ⟨h, hM, rfl, fun _ _ _ _ => rfl, by simp⟩

/-- Along a run the invariant holds and the ranges are the leaves. -/
theorem MapRun.refines (h0 : EmptyP4 A p4 s₀) {h : List (MapEvent σ)} (hrun : MapRun A p4 s₀ h s) :
    MapperInv A p4 s ∧ Refines (rangesOf h) s.tables p4 ∧ s.physOffset.isSome := by
  induction hrun with
  | nil => exact ⟨h0.inv, h0.refines, h0.offset⟩
  | @snoc h s c r s' _ hc hstep ih =>
    obtain ⟨hinv, hM, hoff⟩ := ih
    obtain ⟨hinv', hM', hoff', -⟩ := performCall_spec hinv hM hc hstep
    refine ⟨hinv', ?_, by rw [hoff', hoff]⟩
    rw [rangesOf, foldl_append]
    exact hM'

/-- The two translations are the same function. -/
theorem MemorySet.translate_eq (ms : MemorySet) (hoff : s.physOffset.isSome) (v : VirtAddr) :
    ms.translate s v = OffsetMapper.translate s.tables ms.p4Phys v := by
  obtain ⟨off, hoff⟩ := Option.isSome_iff_exists.mp hoff
  rw [MemorySet.translate, hoff]
  rfl

/-! ## Calls return -/

/-- The operation does not panic. -/
def MapResult.Returns {α : Type} (r : MapResult σ α) : Prop := ∀ msg, r.1 ≠ .error (.panic msg)

theorem MapResult.Returns.andThen {α β : Type} {r : MapResult σ α}
    {f : α → MmState σ → MapResult σ β} (hr : r.Returns) (hf : ∀ a s, (f a s).Returns) :
    (r.andThen f).Returns := by
  rcases r with ⟨e | a, s⟩
  · rintro msg ⟨⟩
    exact hr msg rfl
  · exact hf a s

theorem setAddr_returns {t frame : PhysAddr} {i : Fin 512} {f : PageTableFlags}
    (ha : frame.isAligned 4096 = true) : (s.setAddr t i frame f).Returns := by
  rw [MmState.setAddr, if_pos ha]
  rintro _ ⟨⟩

section

variable (hA : ∀ a, (A.allocateFrame a).1 ≠ some ⟨0⟩)

include hA

/-- Only the frame at address zero makes the mapper panic over a new table. -/
theorem getNextTableByIndex_returns (t : PhysAddr) (i : Fin 512) :
    (getNextTableByIndex A t i s).Returns := by
  unfold getNextTableByIndex
  dsimp only
  split
  next => split <;> rintro _ ⟨⟩
  next =>
    split
    next => rintro _ ⟨⟩
    next phys a halloc =>
      split
      next hz =>
        refine absurd ?_ (hA s.alloc)
        rw [halloc, ← hz]
      next =>
        have hframe := (A.allocate_some halloc).1
        exact (setAddr_returns hframe.isAligned).andThen fun _ _ => by rintro _ ⟨⟩

theorem getTables_returns (q : List (Fin 512)) (t : PhysAddr) : (getTables A q t s).Returns := by
  induction q generalizing t s with
  | nil => rintro _ ⟨⟩
  | cons i q ih => exact (getNextTableByIndex_returns hA t i).andThen fun c _ => ih c

theorem mapPageInner_returns {page : VirtAddr} {frame : PhysAddr} {flags : PageTableFlags}
    (hf : frame.isAligned 4096 = true) : (mapPageInner A p4 page frame flags s).Returns := by
  rw [mapPageInner_eq]
  refine (getTables_returns hA _ _).andThen fun t s => ?_
  unfold storeLeaf
  split
  · rintro _ ⟨⟩
  split
  · rintro _ ⟨⟩
  exact (setAddr_returns hf).andThen fun _ _ => by rintro _ ⟨⟩

end

/-- Unmapping has no assertion. -/
theorem unmapPageInner_returns (page : VirtAddr) : (unmapPageInner A p4 page s).Returns := by
  unfold unmapPageInner
  dsimp only
  repeat' split
  all_goals rintro _ ⟨⟩

/-- A call on a page-aligned frame returns. -/
theorem performCall_returns (hA : ∀ a, (A.allocateFrame a).1 ≠ some ⟨0⟩)
    (hc : ∀ page frame flags, c = .map page frame flags → frame.isAligned 4096 = true) :
    ∃ (r : Except MapError (Option PhysAddr)) (s' : MmState σ),
      performCall A p4 c s = (r.mapError .err, s') := by
  have hret : (performCall A p4 c s).Returns := by
    cases c with
    | map page frame flags =>
      have h : (mapPageInner A p4 page frame flags s).Returns :=
        mapPageInner_returns hA (hc page frame flags rfl)
      rw [performCall]
      rcases hm : mapPageInner A p4 page frame flags s with ⟨_ | _, _⟩ <;> rw [hm] at h
      · rintro msg ⟨⟩
        exact h msg rfl
      · rintro _ ⟨⟩
    | unmap page =>
      have h : (unmapPageInner A p4 page s).Returns := unmapPageInner_returns page
      rw [performCall]
      rcases hm : unmapPageInner A p4 page s with ⟨_ | _, _⟩ <;> rw [hm] at h
      · rintro msg ⟨⟩
        exact h msg rfl
      · rintro _ ⟨⟩
  rcases hp : performCall A p4 c s with ⟨(e | msg) | v, s'⟩
  · exact ⟨.error e, s', rfl⟩
  · exact absurd (by rw [hp]) (hret msg)
  · exact ⟨.ok v, s', rfl⟩

/-- After any sequence of calls the ranges are disjoint and translation, by the mapper or
by the address space, is the lookup in them.  A further call that fails changes no
translation, one that unmaps returns the frame of the range around the page, and on a
page-aligned frame it does return. -/
theorem MapRun.translate_eq_lookup (h₀ : EmptyP4 A p4 s₀) {h : List (MapEvent σ)}
    (hrun : MapRun A p4 s₀ h s) :
    (rangesOf h).Pairwise PageRange.Disjoint ∧
      (∀ v : VirtAddr, v.Canonical →
        OffsetMapper.translate s.tables p4 v = lookupRange (rangesOf h) v) ∧
      (∀ ms : MemorySet, ms.p4Phys = p4 → ∀ v,
        ms.translate s v = OffsetMapper.translate s.tables p4 v) ∧
      (∀ (c : MapCall) (r : Except MapError (Option PhysAddr)) (s' : MmState σ), c.WellFormed →
        performCall A p4 c s = (r.mapError .err, s') →
        (∀ e, r = .error e → ∀ v,
          OffsetMapper.translate s'.tables p4 v = OffsetMapper.translate s.tables p4 v) ∧
        ∀ page frame, c = .unmap page → r = .ok frame →
          ∃ range ∈ rangesOf h, range.contains page = true ∧ frame = some range.frame) ∧
      ∀ c : MapCall, (∀ a, (A.allocateFrame a).1 ≠ some ⟨0⟩) →
        (∀ page frame flags, c = .map page frame flags → frame.isAligned 4096 = true) →
        ∃ (r : Except MapError (Option PhysAddr)) (s' : MmState σ),
          performCall A p4 c s = (r.mapError .err, s') := by
  obtain ⟨hinv, hM, hoff⟩ := hrun.refines h₀
  refine ⟨hM.disjoint, fun v hv => hM.translate_eq hv, ?_, fun c r s' hc hstep => ?_,
    fun c hA hc => performCall_returns hA hc⟩
  · rintro ms rfl v
    exact ms.translate_eq hoff v
  · obtain ⟨-, -, -, herr, hun⟩ := performCall_spec hinv hM hc hstep
    exact ⟨fun e he v => translate_congr (herr e he) v, hun⟩

end Runs

/-! ## A concrete allocator

The simplest allocator that keeps the promises: it hands out frames 2 to 1023 in
order and never reuses one.  Frame 1 is handed out from the start, for a P4. -/

/-- The next frame number, and the frames handed out. -/
structure BumpState where
  next : Nat
  used : List PhysAddr
  below : ∀ p ∈ used, p.pfn < next

/-- The frame with a number. -/
def PhysAddr.ofPfn (n : Nat) : PhysAddr := ⟨UInt64.ofNat (n * 4096)⟩

theorem PhysAddr.toNat_ofPfn (h : n < 1024) : (ofPfn n).asU64.toNat = n * 4096 := by
  simp only [ofPfn, UInt64.toNat_ofNat']
  omega

theorem PhysAddr.pfn_ofPfn (h : n < 1024) : (ofPfn n).pfn = n := by
  rw [pfn, toNat_ofPfn h, Nat.mul_div_cancel _ (by decide)]

def BumpState.allocate (a : BumpState) : Option PhysAddr × BumpState :=
  if h : a.next < 1024 then
    (some (.ofPfn a.next),
      { next := a.next + 1
        used := .ofPfn a.next :: a.used
        below := by
          intro p hp
          rcases mem_cons.mp hp with rfl | hp
          · rw [PhysAddr.pfn_ofPfn h]
            omega
          · exact Nat.lt_succ_of_lt (a.below p hp) })
  else (none, a)

def bumpAllocator : FrameAllocator BumpState where
  allocateFrame := BumpState.allocate
  deallocateFrame a p :=
    { a with used := a.used.filter (· ≠ p), below := fun q hq => a.below q (mem_filter.mp hq).1 }
  held a := {p | p ∈ a.used}
  totalFrames := 1024
  allocate_some := by
    intro a a' p h
    unfold BumpState.allocate at h
    split at h
    next hlt =>
      cases h
      have hp := PhysAddr.toNat_ofPfn hlt
      refine ⟨⟨by omega, by omega⟩, by rwa [PhysAddr.pfn_ofPfn hlt], fun hmem => ?_, ?_⟩
      · have hbelow := a.below _ hmem
        rw [PhysAddr.pfn_ofPfn hlt] at hbelow
        omega
      · ext q
        simp [Set.mem_insert_iff]
    next => cases h
  allocate_none := by
    intro a a' h
    unfold BumpState.allocate at h
    split at h
    next => cases h
    next =>
      cases h
      rfl
  deallocate := by
    intro a p
    ext q
    simp

/-- An empty P4 in frame 1, with all counters zero. -/
def bumpStart : MmState BumpState where
  physOffset := some 0xffff800000000000
  tables := fun _ => .zero
  counts := some ⟨fun _ => 0, 1024⟩
  rmap := ∅
  alloc := ⟨2, [.ofPfn 1], by decide⟩

theorem bumpStart_emptyP4 : EmptyP4 bumpAllocator (.ofPfn 1) bumpStart where
  frame := by decide
  below := by decide
  held := mem_singleton.mpr rfl
  zero := rfl
  offset := rfl
  counts := by
    rintro c ⟨⟩
    exact ⟨rfl, rfl, fun _ _ _ => rfl⟩

/-- The state after one call at the start. -/
def bumpAfter (c : MapCall) : MmState BumpState := (performCall bumpAllocator (.ofPfn 1) c bumpStart).2

/-- Map one user page. -/
def userPage : MapCall := .map ⟨0x400000⟩ ⟨0x100000⟩ (.WRITABLE ||| .USER_ACCESSIBLE)

theorem userPage_wellFormed : userPage.WellFormed := ⟨by decide, by decide, by decide⟩

theorem userPage_run :
    MapRun bumpAllocator (.ofPfn 1) bumpStart [⟨bumpStart, userPage, .ok none, bumpAfter userPage⟩]
      (bumpAfter userPage) :=
  MapRun.single userPage_wellFormed rfl

/-- One mapped page translates as its range says. -/
theorem translate_userPage :
    OffsetMapper.translate (bumpAfter userPage).tables (.ofPfn 1) ⟨0x400123⟩ = some ⟨0x100123⟩ := by
  have hrun := MapRun.translate_eq_lookup bumpStart_emptyP4 userPage_run
  rw [hrun.2.1 ⟨0x400123⟩ (by decide)]
  decide

end BoruixKernel
