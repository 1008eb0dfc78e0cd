import BoruixKernel.Mm.MemorySet
import BoruixKernel.Mm.VmaInsert

/-!
# Lookups in the VMA tree

Every lookup of the tree is a scan of the list of its areas.  `find_prev` and `find_next` are
the ends of the two cuts of the sorted list.  `find_containing` goes left whenever the left
subtree reaches beyond the address and does not come back.  It need not: the area that reaches
beyond the address ends before the node begins, so that neither the node nor anything to its
right has the address.  `check_range` goes from the end of one area to the area `find_next` gives
there, which is the only one that can have that address.
-/

namespace BoruixKernel

open List UInt64 MemoryArea

/-! ## Sorted lists -/

section SortedList

variable {as : List α}

/-- The first element with a property, in a list in which earlier elements are below later ones,
is the one below all others with the property. -/
theorem head?_filter_eq_some_of_pairwise (hasymm : ∀ a b, R a b → ¬ R b a) (hs : as.Pairwise R) :
    (as.filter p).head? = some a ↔ a ∈ as ∧ p a = true ∧ ∀ b ∈ as, p b = true → b = a ∨ R a b := by
  -- One direction for any element that is first, the other by comparing with the first one.
  have hbound : ∀ c, (as.filter p).head? = some c →
      (c ∈ as ∧ p c = true) ∧ ∀ b ∈ as, p b = true → b = c ∨ R c b := by
    intro c hc
    obtain ⟨tail, htail⟩ := head?_eq_some_iff.mp hc
    refine ⟨mem_filter.mp (mem_of_mem_head? hc), fun b hb hpb => ?_⟩
    have hsorted : (c :: tail).Pairwise R := htail ▸ hs.filter p
    have hbmem : b ∈ c :: tail := htail ▸ mem_filter.mpr ⟨hb, hpb⟩
    rcases mem_cons.mp hbmem with hbc | hbt
    · exact .inl hbc
    · exact .inr ((pairwise_cons.mp hsorted).1 b hbt)
  constructor
  · intro ha
    obtain ⟨⟨hin, hp⟩, hall⟩ := hbound a ha
    exact ⟨hin, hp, hall⟩
  · rintro ⟨hin, hp, hall⟩
    cases hhead : (as.filter p).head? with
    | none =>
      have hnil := head?_eq_none_iff.mp hhead
      exact absurd hp (filter_eq_nil_iff.mp hnil a hin)
    | some c =>
      obtain ⟨⟨hcin, hpc⟩, hcall⟩ := hbound c hhead
      rcases hcall a hin hp with rfl | hca
      · rfl
      · rcases hall c hcin hpc with rfl | hac
        · rfl
        · exact absurd hca (hasymm a c hac)

/-- The last element with a property, likewise. -/
theorem getLast?_filter_eq_some_of_pairwise (hasymm : ∀ a b, R a b → ¬ R b a) (hs : as.Pairwise R) :
    (as.filter p).getLast? = some a ↔ a ∈ as ∧ p a = true ∧ ∀ b ∈ as, p b = true → b = a ∨ R b a := by
  have hrev : as.reverse.Pairwise fun a b => R b a := pairwise_reverse.mpr hs
  rw [getLast?_eq_head?_reverse, ← filter_reverse,
    head?_filter_eq_some_of_pairwise (fun a b hab => hasymm b a hab) hrev]
  simp

end SortedList

/-! ## The area that contains an address -/

/-- What areas apart say about a node and its subtrees. -/
theorem AreasApart.node {l r : Link} (h : AreasApart (areas (.node n l r))) :
    AreasApart (areas l) ∧ AreasApart (areas r) ∧
      (∀ a ∈ areas l, a.end.asU64 ≤ n.area.start.asU64) ∧
      ∀ b ∈ areas r, n.area.end.asU64 ≤ b.start.asU64 := by
  obtain ⟨hne, hap⟩ := h
  rw [areas_node] at hne hap
  rw [pairwise_append, pairwise_cons] at hap
  refine ⟨⟨fun a ha => hne a (by simp [ha]), hap.1⟩, ⟨fun a ha => hne a (by simp [ha]), hap.2.1.2⟩,
    fun a ha => (hap.2.2 a ha _ (by simp)).1, fun b hb => (hap.2.1.1 b hb).1⟩

/-- Of two areas, the one that starts first ends before the other starts. -/
theorem AreasApart.end_le_start (h : AreasApart as) (ha : a ∈ as) (hb : b ∈ as)
    (hlt : a.start.asU64 < b.start.asU64) :
    a.end.asU64 ≤ b.start.asU64 := by
  by_contra hover
  have hmeet : a.Intersects b := ⟨b.start, contains_iff.mpr ⟨hlt.le, not_le.mp hover⟩,
    contains_start (h.nonempty b hb)⟩
  obtain rfl := h.eq_of_intersects ha hb hmeet
  exact absurd hlt (lt_irrefl _)

/-- A left subtree reaches beyond an address exactly if one of its areas does. -/
theorem reachesBeyond_iff (ht : Shaped t) (addr : UInt64) :
    reachesBeyond t addr = true ↔ ∃ a ∈ areas t, addr < a.end.asU64 := by
  cases t with
  | nil => simp [reachesBeyond]
  | node n l r =>
    simp only [reachesBeyond, decide_eq_true_eq]
    constructor
    · intro hgt
      obtain ⟨a, ha, hae⟩ := ht.1.2.2.1
      exact ⟨a, ha, hae ▸ hgt⟩
    · rintro ⟨a, ha, hlt⟩
      exact hlt.trans_le (ht.end_le ha)

/-- An area with the address is found. -/
theorem findContaining_of_mem (ht : Shaped t) (hap : AreasApart (areas t)) (ha : a ∈ areas t)
    (hstart : a.start.asU64 ≤ addr)
    (hend : addr < a.end.asU64) : findContaining t addr = some a := by
  induction t with
  | nil => cases ha
  | node n l r ihl ihr =>
    obtain ⟨hapl, hapr, hleft, hright⟩ := hap.node
    have hn : n.area.start.asU64 < n.area.end.asU64 := hap.nonempty _ (by simp)
    rw [areas_node, mem_append, mem_cons] at ha
    rw [findContaining]
    split
    next hbeyond =>
      -- An area on the left reaches beyond the address, so the address is before the node.
      obtain ⟨b, hb, hlt⟩ := (reachesBeyond_iff ht.left addr).mp hbeyond
      have hbefore : addr < n.area.start.asU64 := hlt.trans_le (hleft b hb)
      rcases ha with hal | rfl | har
      · exact ihl ht.left hapl hal
      · exact absurd hbefore (not_lt.mpr hstart)
      · exact absurd (hbefore.trans (hn.trans_le (hright a har))) (not_lt.mpr hstart)
    next hnot =>
      rcases ha with hal | rfl | har
      · exact absurd ((reachesBeyond_iff ht.left addr).mpr ⟨a, hal, hend⟩) hnot
      · rw [if_neg (not_lt.mpr hstart), if_neg (not_le.mpr hend)]
      · have hafter : n.area.end.asU64 ≤ addr := (hright a har).trans hstart
        rw [if_neg (not_lt.mpr (hn.le.trans hafter)), if_pos hafter]
        exact ihr ht.right hapr har

variable {stop : UInt64}

namespace VmaTree

variable {t : VmaTree} {a : MemoryArea}

theorem Good.findContaining_eq_some (h : t.Good) :
    findContaining t.root addr.asU64 = some a ↔ a ∈ areas t.root ∧ a.contains addr = true := by
  rw [contains_iff]
  exact ⟨findContaining_spec, fun ⟨ha, hin⟩ => findContaining_of_mem h.shaped h.apart ha hin.1 hin.2⟩

theorem Good.findPrev_eq_some (h : t.Good) :
    findPrev t.root key = some a ↔ a ∈ areas t.root ∧ a.start.asU64 ≤ key ∧
      ∀ b ∈ areas t.root, b.start.asU64 ≤ key → b.start.asU64 ≤ a.start.asU64 := by
  rw [findPrev_eq h.shaped h.apart.sorted,
    getLast?_filter_eq_some_of_pairwise (fun _ _ => lt_asymm) h.apart.sorted]
  simp only [decide_eq_true_eq]
  refine and_congr_right fun ha => and_congr_right fun _ => forall₃_congr fun b hb _ => ?_
  rw [le_iff_eq_or_lt]
  exact or_congr_left ⟨fun heq => heq ▸ rfl, h.apart.sorted.eq_of_start hb ha⟩

theorem Good.findNext_eq_some (h : t.Good) :
    findNext t.root key = some a ↔ a ∈ areas t.root ∧ key ≤ a.start.asU64 ∧
      ∀ b ∈ areas t.root, key ≤ b.start.asU64 → a.start.asU64 ≤ b.start.asU64 := by
  rw [findNext_eq h.shaped h.apart.sorted,
    head?_filter_eq_some_of_pairwise (fun _ _ => lt_asymm) h.apart.sorted]
  simp only [decide_eq_true_eq]
  refine and_congr_right fun ha => and_congr_right fun _ => forall₃_congr fun b hb _ => ?_
  rw [le_iff_eq_or_lt]
  exact or_congr_left ⟨fun heq => heq ▸ rfl, fun heq => h.apart.sorted.eq_of_start hb ha heq.symm⟩

theorem Good.findPrev_eq_none (h : t.Good) :
    findPrev t.root key = none ↔ ∀ a ∈ areas t.root, key < a.start.asU64 := by
  rw [findPrev_eq h.shaped h.apart.sorted, getLast?_eq_none_iff, filter_eq_nil_iff]
  simp

theorem Good.findNext_eq_none (h : t.Good) :
    findNext t.root key = none ↔ ∀ a ∈ areas t.root, a.start.asU64 < key := by
  rw [findNext_eq h.shaped h.apart.sorted, head?_eq_none_iff, filter_eq_nil_iff]
  simp

theorem Good.findContaining_eq_none (h : t.Good) :
    findContaining t.root addr.asU64 = none ↔ ∀ a ∈ areas t.root, a.contains addr = false := by
  rw [Option.eq_none_iff_forall_ne_some]
  refine forall_congr' fun a => ?_
  rw [Ne, h.findContaining_eq_some, not_and, Bool.not_eq_true]

/-- The lookups in a tree that insertions into the empty tree have made are scans of its areas,
and the traversal gives each area once, by increasing start. -/
theorem run_lookups (calls : List MemoryArea) (addr : VirtAddr) :
    let t := run calls
    ((∀ a, findContaining t.root addr.asU64 = some a ↔
        a ∈ areas t.root ∧ a.contains addr = true ∧
          ∀ b ∈ areas t.root, b.contains addr = true → b = a) ∧
      (findContaining t.root addr.asU64 = none ↔ ∀ a ∈ areas t.root, a.contains addr = false)) ∧
    ((∀ a, findPrev t.root addr.asU64 = some a ↔
        a ∈ areas t.root ∧ a.start.asU64 ≤ addr.asU64 ∧
          ∀ b ∈ areas t.root, b.start.asU64 ≤ addr.asU64 → b.start.asU64 ≤ a.start.asU64) ∧
      (findPrev t.root addr.asU64 = none ↔ ∀ a ∈ areas t.root, addr.asU64 < a.start.asU64)) ∧
    ((∀ a, findNext t.root addr.asU64 = some a ↔
        a ∈ areas t.root ∧ addr.asU64 ≤ a.start.asU64 ∧
          ∀ b ∈ areas t.root, addr.asU64 ≤ b.start.asU64 → a.start.asU64 ≤ b.start.asU64) ∧
      (findNext t.root addr.asU64 = none ↔ ∀ a ∈ areas t.root, a.start.asU64 < addr.asU64)) ∧
    (t.areasInOrder = t.root.inorder.map IntervalNode.area ∧
      t.areasInOrder.Pairwise fun a b => a.start.asU64 < b.start.asU64) := by
  have h : (run calls).Good := run_good calls
  refine ⟨⟨fun a => ?_, h.findContaining_eq_none⟩, ⟨fun _ => h.findPrev_eq_some, h.findPrev_eq_none⟩,
    ⟨fun _ => h.findNext_eq_some, h.findNext_eq_none⟩, areasInOrder_eq _, ?_⟩
  · rw [h.findContaining_eq_some]
    refine and_congr_right fun ha => (and_iff_left_of_imp fun hin b hb hbin => ?_).symm
    exact h.apart.eq_of_intersects hb ha ⟨addr, hbin, hin⟩
  · rw [areasInOrder_eq]
    exact h.apart.sorted

/-! ## `check_range` -/

/-- The area that has the end of another one starts there, so `find_next` finds it. -/
theorem Good.findNext_of_contains_end (h : t.Good) (ha : a ∈ areas t.root) (hb : b ∈ areas t.root)
    (hin : b.contains a.end = true) :
    findNext t.root a.end.asU64 = some b := by
  obtain ⟨hstart, hend⟩ := contains_iff.mp hin
  have hlt : a.start.asU64 < b.start.asU64 := by
    by_contra hle
    -- The address of `a` at its start would be in `b` too, but `b` has the end of `a`.
    have hmeet : a.Intersects b := ⟨a.start, contains_start (h.apart.nonempty a ha),
      contains_iff.mpr ⟨not_lt.mp hle, (h.apart.nonempty a ha).trans hend⟩⟩
    obtain rfl := h.apart.eq_of_intersects ha hb hmeet
    exact absurd hend (lt_irrefl _)
  have hge := h.apart.end_le_start ha hb hlt
  exact h.findNext_eq_some.mpr ⟨hb, hge, fun c _ hc => hstart.trans hc⟩

/-- Every address from `cur` up to `stop` is in an area of the tree with the required flags. -/
def Covers (t : VmaTree) (required : PageTableFlags) (cur stop : UInt64) : Prop :=
  ∀ x, cur ≤ x → x < stop →
    ∃ a ∈ areas t.root, a.contains ⟨x⟩ = true ∧ a.flags.contains required = true

/-- The same of addresses as numbers. -/
theorem covers_iff {cur : UInt64} : t.Covers required cur stop ↔
      ∀ x : Nat, cur.toNat ≤ x → x < stop.toNat →
        ∃ a ∈ areas t.root, a.start.asU64.toNat ≤ x ∧ x < a.end.asU64.toNat ∧
          a.flags.contains required = true := by
  constructor
  · intro h x hcur hstop
    have hx : (UInt64.ofNat x).toNat = x :=
      toNat_ofNat_of_lt' (hstop.trans stop.toNat_lt)
    obtain ⟨a, ha, hin, hflags⟩ := h (.ofNat x) (le_iff_toNat_le.mpr (hx.symm ▸ hcur))
      (lt_iff_toNat_lt.mpr (hx.symm ▸ hstop))
    rw [contains_iff, le_iff_toNat_le, lt_iff_toNat_lt, hx] at hin
    exact ⟨a, ha, hin.1, hin.2, hflags⟩
  · intro h x hcur hstop
    obtain ⟨a, ha, hstart, hend, hflags⟩ :=
      h x.toNat (le_iff_toNat_le.mp hcur) (lt_iff_toNat_lt.mp hstop)
    exact ⟨a, ha, contains_iff.mpr
      ⟨le_iff_toNat_le.mpr hstart, lt_iff_toNat_lt.mpr hend⟩, hflags⟩

/-- The loop accepts a range that is covered, from the area that has its first address. -/
theorem checkRangeLoop_complete (hcov : t.Covers required cur stop)
    (hat : ∀ a ∈ areas t.root, a.contains ⟨cur⟩ = true → currentArea = some a) :
    checkRangeLoop t ht stop required cur currentArea h = true := by
  induction hn : stop.toNat - cur.toNat using Nat.strong_induction_on
    generalizing cur currentArea with
  | _ n ih =>
    rw [checkRangeLoop]
    split
    next hlt =>
      obtain ⟨a, ha, hin, hflags⟩ := hcov cur (le_refl _) hlt
      obtain rfl := hat a ha hin
      obtain ⟨hstart, hend⟩ := contains_iff.mp hin
      simp only [gt_iff_lt, not_lt.mpr hstart, hflags, Bool.not_true, Bool.false_eq_true, if_false,
        dite_false]
      split
      next hmore =>
        have hnext : min stop a.end.asU64 = a.end.asU64 :=
          min_eq_right (le_of_not_ge fun hge => by
            rw [min_eq_left hge] at hmore
            exact absurd hmore (lt_irrefl _))
        refine ih _ ?_ (fun x hx => hcov x (le_trans ?_ hx)) (fun b hb hbin => ?_) rfl
        · rw [hnext] at hmore ⊢
          rw [lt_iff_toNat_lt] at hmore hend hlt
          simp only at hend
          omega
        · rw [hnext]
          exact hend.le
        · rw [hnext] at hbin ⊢
          exact ht.findNext_of_contains_end ha hb hbin
      next => rfl
    next => rfl

end VmaTree

namespace MemorySet

/-- Where the range ends at an address, `check_range` decides whether it is covered. -/
theorem checkRange_eq_true_of_checkedAdd (ms : MemorySet) {size : UInt64} (required : PageTableFlags)
    (hsize : size ≠ 0) (hstop : addr.asU64.checkedAdd size = some stop) :
    ms.checkRange addr size required = true ↔ ms.vma.Covers required addr.asU64 stop := by
  rw [checkRange, if_neg hsize, hstop]
  constructor
  · intro hok x hx hxs
    obtain ⟨a, ha, hstart, hend, hflags⟩ := checkRangeLoop_sound hok x hx hxs
    exact ⟨a, ha, contains_iff.mpr ⟨hstart, hend⟩, hflags⟩
  · intro hcov
    refine VmaTree.checkRangeLoop_complete hcov fun a ha hin => ?_
    have hfind : findContaining ms.vma.root addr.asU64 = some a :=
      ms.vma_good.findContaining_eq_some.mpr ⟨ha, hin⟩
    rw [hfind, Option.some_or]

/-- `check_range` accepts a range exactly if every byte of it is in an area with the required
flags.  A range that ends beyond the last address is rejected. -/
theorem checkRange_iff (ms : MemorySet) (addr : VirtAddr) (size : UInt64) (required : PageTableFlags) :
    (ms.checkRange addr size required = true ↔
      ∀ x : Nat, addr.asU64.toNat ≤ x → x < addr.asU64.toNat + size.toNat →
        ∃ a ∈ areas ms.vma.root, a.start.asU64.toNat ≤ x ∧ x < a.end.asU64.toNat ∧
          a.flags.contains required = true) ∧
    (2 ^ 64 < addr.asU64.toNat + size.toNat → ms.checkRange addr size required = false) := by
  have hzero : size = 0 ∨ size ≠ 0 := eq_or_ne size 0
  have haddr := addr.asU64.toNat_lt
  rcases hzero with rfl | hsize
  · refine ⟨⟨fun _ x hx hxs => ?_, fun _ => rfl⟩, fun hover => ?_⟩
    · exact absurd hx (not_le.mpr hxs)
    · exact absurd haddr (not_lt.mpr hover.le)
  · cases hstop : addr.asU64.checkedAdd size with
    | some stop =>
      have hsum := checkedAdd_eq_some hstop
      rw [ms.checkRange_eq_true_of_checkedAdd required hsize hstop, VmaTree.covers_iff, hsum]
      refine ⟨Iff.rfl, fun hover => ?_⟩
      exact absurd stop.toNat_lt (not_lt.mpr (hsum ▸ hover.le))
    | none =>
      have hfalse : ms.checkRange addr size required = false := by
        rw [checkRange, if_neg hsize, hstop]
      have hover : 2 ^ 64 ≤ addr.asU64.toNat + size.toNat := by
        unfold UInt64.checkedAdd at hstop
        split at hstop
        next => cases hstop
        next hge => exact not_lt.mp hge
      rw [hfalse]
      refine ⟨⟨fun h => (nomatch h), fun hcov => ?_⟩, fun _ => rfl⟩
      -- No area has the last address: it would end beyond it.
      obtain ⟨a, -, -, hlt, -⟩ := hcov (2 ^ 64 - 1) (by omega) (by omega)
      have hend := a.end.asU64.toNat_lt
      omega

end MemorySet

end BoruixKernel
