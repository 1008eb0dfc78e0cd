import BoruixKernel.Mm.VmaInsert

/-!
# The VMA tree is determined by its areas

A treap with distinct keys and distinct priorities has one shape.  The priority of a node is the
hash of the start of its area, and the hash is injective, as each of its steps is: adding a
constant, the exclusive or with a shifted copy and the multiplication by an odd constant.  So the
root of a tree is the one area with the greatest priority, which fixes the areas of both subtrees,
and the cached maximum is the greatest end of the areas.  The areas in turn are the longest ranges
with the same flags, so that the tree is determined by the flags of the addresses.
-/

namespace BoruixKernel

/-! ## The hash -/

theorem splitmix64_injective (h : splitmix64 x = splitmix64 y) : x = y := by
  have h1 := UInt64.xor_shiftRight_injective (k := 31) (by decide) h
  have h2 := UInt64.mul_right_cancel_of_mul_eq_one (d := 0x319642b2d24d8ec3) (by decide) h1
  have h3 := UInt64.xor_shiftRight_injective (k := 27) (by decide) h2
  have h4 := UInt64.mul_right_cancel_of_mul_eq_one (d := 0x96de1b173f119089) (by decide) h3
  have h5 := UInt64.xor_shiftRight_injective (k := 30) (by decide) h4
  exact (UInt64.add_left_inj _).mp h5

/-! ## The shape -/

/-- The two parts of a sorted list around an element are the smaller and the larger starts. -/
theorem StartsSorted.parts (h : StartsSorted (as ++ a :: bs)) :
    as = (as ++ a :: bs).filter (·.start.asU64 < a.start.asU64) ∧
      a :: bs = (as ++ a :: bs).filter fun b => !decide (b.start.asU64 < a.start.asU64) := by
  obtain ⟨-, hcons, hcross⟩ := List.pairwise_append.mp h
  refine filter_of_append rfl (fun b hb => ?_) fun b hb => ?_
  · exact decide_eq_true (hcross b hb a (by simp))
  · rcases List.mem_cons.mp hb with rfl | hb
    · exact decide_eq_false (lt_irrefl _)
    · exact decide_eq_false (not_lt.mpr ((List.pairwise_cons.mp hcons).1 b hb).le)

/-- Sorted lists with the same areas are the same. -/
theorem StartsSorted.eq_of_mem_iff (ha : StartsSorted as) (hb : StartsSorted bs)
    (h : ∀ a, a ∈ as ↔ a ∈ bs) : as = bs := by
  have hnodup : ∀ {cs : List MemoryArea}, StartsSorted cs → cs.Nodup := by
    intro cs hc
    refine hc.imp fun {a b} hlt heq => ?_
    exact absurd hlt (heq ▸ lt_irrefl _)
  refine ((List.perm_ext_iff_of_nodup (hnodup ha) (hnodup hb)).mpr h).eq_of_pairwise ?_ ha hb
  intro a b _ _ hab hba
  exact absurd hab (lt_asymm hba)

/-- Shaped trees with the same areas have the same area at the root. -/
theorem Shaped.root_eq {l r l' r' : Link} (ht : Shaped (.node n l r)) (hu : Shaped (.node m l' r'))
    (hs : StartsSorted (areas (.node n l r)))
    (h : areas (.node n l r) = areas (.node m l' r')) : n.area = m.area := by
  have hn : n.area ∈ areas (.node n l r) := by simp
  have hm : m.area ∈ areas (.node n l r) := by rw [h]; simp
  have hprio : m.area.prio = n.area.prio := by
    have hle := ht.prio_le hm
    have hge := hu.prio_le (h ▸ hn)
    rw [ht.keyed.2, ht.keyed.1] at hle
    rw [hu.keyed.2, hu.keyed.1] at hge
    exact le_antisymm hle hge
  exact hs.eq_of_start hn hm (splitmix64_injective hprio).symm

/-- The node of a shaped tree is determined by its area and the areas of the tree. -/
theorem Shaped.node_eq {l r l' r' : Link} (ht : Shaped (.node n l r)) (hu : Shaped (.node m l' r'))
    (h : areas (.node n l r) = areas (.node m l' r')) (harea : n.area = m.area) : n = m := by
  have hkey : n.key = m.key := by rw [ht.keyed.1, hu.keyed.1, harea]
  have hprio : n.prio = m.prio := by rw [ht.keyed.2, hu.keyed.2, hkey]
  have hmax : n.maxEnd = m.maxEnd := ht.1.2.2.unique (h ▸ hu.1.2.2)
  cases n
  cases m
  simp only [IntervalNode.mk.injEq]
  exact ⟨hkey, harea, hmax, hprio⟩

/-- Shaped trees with the same sorted areas are the same. -/
theorem Shaped.eq_of_areas (ht : Shaped t) (hu : Shaped u) (hs : StartsSorted (areas t))
    (h : areas t = areas u) : t = u := by
  induction t generalizing u with
  | nil =>
    cases u with
    | nil => rfl
    | node m l' r' => simp at h
  | node n l r ihl ihr =>
    cases u with
    | nil => simp at h
    | node m l' r' =>
      have harea := ht.root_eq hu hs h
      obtain ⟨hsl, hsr, -⟩ := hs.node
      have hs' : StartsSorted (areas (.node m l' r')) := h ▸ hs
      rw [areas_node] at hs hs'
      have hl : areas l = areas l' := by
        rw [hs.parts.1, hs'.parts.1, ← areas_node, ← areas_node, h, harea]
      have hr : areas r = areas r' := by
        have hcons : n.area :: areas r = m.area :: areas r' := by
          rw [hs.parts.2, hs'.parts.2, ← areas_node, ← areas_node, h, harea]
        exact (List.cons.inj hcons).2
      rw [ht.node_eq hu h harea, ihl ht.left hu.left hsl hl, ihr ht.right hu.right hsr hr]

namespace VmaTree

/-- Two trees that insertions into the empty tree have made, in any order and with any pieces, are
the same in every node if they have the same areas. -/
theorem run_canonical (calls calls' : List MemoryArea)
    (h : ∀ a, a ∈ (run calls).areasInOrder ↔ a ∈ (run calls').areasInOrder) :
    run calls = run calls' := by
  have hgood := run_good calls
  have hgood' := run_good calls'
  simp only [areasInOrder_eq] at h
  have hareas := StartsSorted.eq_of_mem_iff hgood.apart.sorted hgood'.apart.sorted h
  exact congrArg VmaTree.mk (hgood.shaped.eq_of_areas hgood'.shaped hgood.apart.sorted hareas)

/-- A range in one piece, and in three pieces with the middle one last. -/
theorem run_canonical_pieces :
    run [.new ⟨0x8000⟩ ⟨0x9000⟩ .WRITABLE, .new ⟨0x1000⟩ ⟨0x4000⟩ .USER_ACCESSIBLE] =
      run [.new ⟨0x1000⟩ ⟨0x2000⟩ .USER_ACCESSIBLE, .new ⟨0x3000⟩ ⟨0x4000⟩ .USER_ACCESSIBLE,
        .new ⟨0x8000⟩ ⟨0x9000⟩ .WRITABLE, .new ⟨0x2000⟩ ⟨0x3000⟩ .USER_ACCESSIBLE] := by
  refine run_canonical _ _ fun a => ?_
  have hareas : (run [.new ⟨0x8000⟩ ⟨0x9000⟩ .WRITABLE, .new ⟨0x1000⟩ ⟨0x4000⟩ .USER_ACCESSIBLE]).areasInOrder =
      (run [.new ⟨0x1000⟩ ⟨0x2000⟩ .USER_ACCESSIBLE, .new ⟨0x3000⟩ ⟨0x4000⟩ .USER_ACCESSIBLE,
        .new ⟨0x8000⟩ ⟨0x9000⟩ .WRITABLE, .new ⟨0x2000⟩ ⟨0x3000⟩ .USER_ACCESSIBLE]).areasInOrder := by
    decide +kernel
  rw [hareas]

end VmaTree

/-! ## The map of addresses -/

/-- The address just after the area, or the last one before it. -/
def MemoryArea.NextTo (a : MemoryArea) (addr : VirtAddr) : Prop :=
  addr.asU64 = a.end.asU64 ∨ addr.asU64 < a.start.asU64 ∧ ∀ x, addr.asU64 < x → a.start.asU64 ≤ x

namespace VmaTree

variable {t u : VmaTree} {a : MemoryArea}

/-- Next to an area of a tree there are other flags, or none. -/
theorem Good.flagsAt_ne (h : t.Good) (ha : a ∈ areas t.root) (hnext : a.NextTo addr) :
    t.flagsAt addr ≠ some a.flags := by
  intro hflags
  obtain ⟨b, hb, hin, hsame⟩ := h.flagsAt_eq_some.mp hflags
  have hne := h.apart.nonempty a ha
  have hdiff : a ≠ b := by
    rintro rfl
    rw [MemoryArea.contains_iff] at hin
    rcases hnext with hnext | hnext
    · exact hin.2.ne hnext
    · exact absurd hin.1 (not_le.mpr hnext.1)
  have hapart : ∀ v, ¬ (a.contains v = true ∧ b.contains v = true) := fun v hv =>
    hdiff (h.apart.eq_of_intersects ha hb ⟨v, hv⟩)
  have hstart := hapart a.start
  have hstart' := hapart b.start
  simp only [MemoryArea.contains_iff] at hin hstart hstart'
  obtain ⟨hab, hba⟩ := h.apart.unjoined a ha b hb
  rcases hnext with hnext | ⟨hbefore, hlast⟩
  · exact hab (by grind) hsame.symm
  · have hend := hlast _ hin.2
    exact hba (by grind) hsame

/-- If two trees give every address the same flags, each area of one is an area of the other. -/
theorem Good.mem_of_flagsAt (h : t.Good) (hu : u.Good)
    (hback : ∀ a, a ∈ areas t.root ∨ a ∈ areas u.root → a.backing = .Anonymous)
    (hsame : ∀ addr, t.flagsAt addr = u.flagsAt addr) (ha : a ∈ areas t.root) : a ∈ areas u.root := by
  have hne := h.apart.nonempty a ha
  obtain ⟨b, hb, hin, hflags⟩ := hu.flagsAt_eq_some.mp
    ((hsame a.start).symm.trans (h.flagsAt_eq_some.mpr ⟨a, ha, MemoryArea.contains_start hne, rfl⟩))
  -- Neither area has an address next to the other one.
  have hout : ∀ addr, a.NextTo addr → b.contains addr ≠ true := fun _ hnext hbin =>
    h.flagsAt_ne ha hnext ((hsame _).trans (hu.flagsAt_eq_some.mpr ⟨b, hb, hbin, hflags⟩))
  have hout' : a.contains b.end ≠ true := fun hain => hu.flagsAt_ne hb (.inl rfl)
    ((hsame _).symm.trans (h.flagsAt_eq_some.mpr ⟨a, ha, hain, hflags.symm⟩))
  have hend := hout a.end (.inl rfl)
  simp only [ne_eq, MemoryArea.contains_iff] at hin hout' hend
  have hstart : b.start = a.start := by
    ext1
    by_contra hdiff
    have hlt : b.start.asU64 < a.start.asU64 := lt_of_le_of_ne hin.1 hdiff
    exact hout ⟨a.start.asU64 - 1⟩ (.inr ⟨by grind, by grind⟩)
      (MemoryArea.contains_iff.mpr ⟨by grind, by grind⟩)
  have hstop : b.end = a.end := by
    ext1
    grind
  have heq : b = a := by
    have hbacking := (hback b (.inr hb)).trans (hback a (.inl ha)).symm
    cases a
    cases b
    simp_all
  exact heq ▸ hb

/-- Trees of anonymous areas that insertions into the empty tree have made are the same in every node
if they give the same flags to every address. -/
theorem run_determined (calls calls' : List MemoryArea)
    (hback : ∀ a, a ∈ (run calls).areasInOrder ∨ a ∈ (run calls').areasInOrder → a.backing = .Anonymous)
    (hsame : ∀ addr, (run calls).flagsAt addr = (run calls').flagsAt addr) :
    run calls = run calls' := by
  have h := run_good calls
  have h' := run_good calls'
  simp only [areasInOrder_eq] at hback
  have hareas := StartsSorted.eq_of_mem_iff h.apart.sorted h'.apart.sorted fun a =>
    ⟨h.mem_of_flagsAt h' hback hsame, h'.mem_of_flagsAt h (fun a ha => hback a ha.symm) fun addr => (hsame addr).symm⟩
  exact congrArg VmaTree.mk (h.shaped.eq_of_areas h'.shaped h.apart.sorted hareas)

theorem run_determined_pieces :
    run [.new ⟨0x1000⟩ ⟨0x3000⟩ .WRITABLE] =
      run [.new ⟨0x2000⟩ ⟨0x3000⟩ .WRITABLE, .new ⟨0x1000⟩ ⟨0x2000⟩ .WRITABLE] := by
  have hareas : (run [.new ⟨0x1000⟩ ⟨0x3000⟩ .WRITABLE]).areasInOrder =
      (run [.new ⟨0x2000⟩ ⟨0x3000⟩ .WRITABLE, .new ⟨0x1000⟩ ⟨0x2000⟩ .WRITABLE]).areasInOrder := by
    decide +kernel
  refine run_determined _ _ (fun a ha => ?_) fun addr => by rw [flagsAt, flagsAt, hareas]
  rw [← hareas, or_self] at ha
  revert a
  decide +kernel

end VmaTree

end BoruixKernel
