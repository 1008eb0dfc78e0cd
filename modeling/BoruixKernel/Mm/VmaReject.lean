import BoruixKernel.Mm.VmaLookup

/-!
# Rejected insertions

`insert_area` takes an adjacent area with the same flags out of the tree before it looks at the
next one.  If the next one overlaps, the insertion is rejected and the area that was taken out is
lost.  An overlap is always met in the first round, so the three outcomes of the first half round
decide what a rejection does to the tree.
-/

namespace BoruixKernel.VmaTree

open MemoryArea

variable {t : VmaTree} {area : MemoryArea}

/-! ## The half rounds on a good tree -/

/-- An area with the first address of the new one overlaps as its previous neighbour. -/
theorem Good.absorbPrev_overlap (h : t.Good) (ha : a ∈ areas t.root)
    (hin : a.contains area.start = true) : absorbPrev t.root area = none := by
  obtain ⟨hle, hgt⟩ := contains_iff.mp hin
  have hprev : findPrev t.root area.start.asU64 = some a := by
    refine h.findPrev_eq_some.mpr ⟨ha, hle, fun b hb hble => ?_⟩
    by_contra hlt
    have hend := h.apart.end_le_start ha hb (not_le.mp hlt)
    exact absurd (hgt.trans_le hend) (not_lt.mpr hble)
  rw [absorbPrev, hprev]
  exact if_pos hgt

/-- Where no area has the first address, an adjacent area with the same flags is taken out. -/
theorem Good.absorbPrev_joinable (h : t.Good) (hp : p ∈ areas t.root) (hjoin : Joinable p area)
    (hclear : ∀ a ∈ areas t.root, a.contains area.start = false) :
    absorbPrev t.root area =
      some ((removeNode t.root p.start.asU64).1, { area with start := p.start }, true) := by
  have hple : p.start.asU64 ≤ area.start.asU64 := hjoin.1 ▸ (h.apart.nonempty p hp).le
  have hprev : findPrev t.root area.start.asU64 = some p := by
    refine h.findPrev_eq_some.mpr ⟨hp, hple, fun b hb hble => ?_⟩
    by_contra hlt
    -- An area between the two would start at the first address.
    have hend := h.apart.end_le_start hp hb (not_le.mp hlt)
    have hin : b.contains area.start = true := contains_iff.mpr
      ⟨hble, (hjoin.1 ▸ hend).trans_lt (h.apart.nonempty b hb)⟩
    exact absurd hin (Bool.not_eq_true _ ▸ hclear b hb)
  rw [absorbPrev, hprev]
  simp [hjoin.1, hjoin.2]

/-- Otherwise the previous neighbour does nothing. -/
theorem Good.absorbPrev_clear (h : t.Good) (hclear : ∀ a ∈ areas t.root, a.contains area.start = false)
    (hapart : ∀ p ∈ areas t.root, ¬ Joinable p area) :
    absorbPrev t.root area = some (t.root, area, false) := by
  rw [absorbPrev]
  split
  next => rfl
  next prev hprev =>
    obtain ⟨hmem, hle, -⟩ := h.findPrev_eq_some.mp hprev
    have hend : ¬ prev.end.asU64 > area.start.asU64 := fun hgt =>
      absurd (contains_iff.mpr ⟨hle, hgt⟩) (Bool.not_eq_true _ ▸ hclear prev hmem)
    rw [if_neg hend]
    exact if_neg (hapart prev hmem)

/-- An area that starts inside the new one overlaps as its next neighbour, if not another does. -/
theorem Good.absorbNext_overlap (h : t.Good) (ha : a ∈ areas t.root)
    (hle : area.start.asU64 ≤ a.start.asU64) (hlt : a.start.asU64 < area.end.asU64) :
    absorbNext t.root area = none := by
  rw [absorbNext]
  split
  next hnone => exact absurd (h.findNext_eq_none.mp hnone a ha) (not_lt.mpr hle)
  next nxt hnext =>
    have hmin := (h.findNext_eq_some.mp hnext).2.2 a ha hle
    exact if_pos (hmin.trans_lt hlt)

theorem Good.removeNode (h : t.Good) (key : UInt64) :
    Good ⟨(BoruixKernel.removeNode t.root key).1⟩ := by
  refine ⟨h.shaped.removeNode key, ?_⟩
  rw [areas_removeNode h.shaped h.apart.sorted]
  exact h.apart.filter _

/-! ## The rejection -/

/-- A rejection in the first half round. -/
theorem insertArea_of_absorbPrev_none (hprev : absorbPrev t.root area = none) :
    t.insertArea area = (.error .InvalidAccess, t) := by
  simp [insertArea, insertLoop, hprev]

/-- A rejection in the second half round keeps what the first one did to the tree. -/
theorem insertArea_of_absorbNext_none (hne : area.start.asU64 < area.end.asU64)
    (hprev : absorbPrev t.root area = some (root', area', merged))
    (hnext : absorbNext root' area' = none) :
    t.insertArea area = (.error .InvalidAccess, ⟨root'⟩) := by
  simp [insertArea, if_neg (not_le.mpr hne), insertLoop, hprev, hnext]

/-- An area that meets the new one, but does not have its first address, starts inside it. -/
theorem start_of_intersects {a : MemoryArea} (hclear : a.contains area.start = false)
    (hmeet : a.Intersects area) :
    area.start.asU64 < a.start.asU64 ∧ a.start.asU64 < area.end.asU64 := by
  obtain ⟨addr, hin, hnew⟩ := hmeet
  rw [contains_iff] at hin hnew
  refine ⟨?_, hin.1.trans_lt hnew.2⟩
  by_contra hle
  have hstart : a.contains area.start = true :=
    contains_iff.mpr ⟨not_lt.mp hle, hnew.1.trans_lt hin.2⟩
  exact absurd hstart (Bool.not_eq_true _ ▸ hclear)

/-- A rejected insertion loses an area exactly if an adjacent area has the same flags and no area
has the first address of the new one. -/
theorem Good.insertArea_rejected (h : t.Good) (hne : area.start.asU64 < area.end.asU64)
    (hmeets : ∃ a ∈ areas t.root, a.Intersects area) :
    (∀ a, a ∈ areas (t.insertArea area).2.root ↔ a ∈ areas t.root) ↔
      ((∃ p ∈ areas t.root, Joinable p area) → ∃ a ∈ areas t.root, a.contains area.start = true) := by
  by_cases hstart : ∃ a ∈ areas t.root, a.contains area.start = true
  · obtain ⟨a, ha, hin⟩ := hstart
    rw [insertArea_of_absorbPrev_none (h.absorbPrev_overlap ha hin)]
    exact ⟨fun _ _ => ⟨a, ha, hin⟩, fun _ _ => Iff.rfl⟩
  · have hclear : ∀ a ∈ areas t.root, a.contains area.start = false := by
      intro a ha
      exact Bool.eq_false_iff.mpr fun hin => hstart ⟨a, ha, hin⟩
    obtain ⟨a, ha, hmeet⟩ := hmeets
    obtain ⟨hafter, hbefore⟩ := start_of_intersects (hclear a ha) hmeet
    by_cases hjoin : ∃ p ∈ areas t.root, Joinable p area
    · obtain ⟨p, hp, hpj⟩ := hjoin
      -- `p` is gone when the area that starts inside the new one is met.
      have hpa : p.start.asU64 < a.start.asU64 :=
        (h.apart.nonempty p hp).trans_le (hpj.1.le.trans hafter.le)
      have hareas : ∀ b, b ∈ areas (BoruixKernel.removeNode t.root p.start.asU64).1 ↔
          b ∈ areas t.root ∧ b.start.asU64 ≠ p.start.asU64 := by
        intro b
        rw [areas_removeNode h.shaped h.apart.sorted, List.mem_filter, decide_eq_true_eq]
      have hnext : absorbNext (BoruixKernel.removeNode t.root p.start.asU64).1
          { area with start := p.start } = none :=
        (h.removeNode p.start.asU64).absorbNext_overlap ((hareas a).mpr ⟨ha, hpa.ne'⟩) hpa.le hbefore
      rw [insertArea_of_absorbNext_none hne (h.absorbPrev_joinable hp hpj hclear) hnext]
      refine ⟨fun hsame => ?_, fun hcond => absurd (hcond ⟨p, hp, hpj⟩) hstart⟩
      exact absurd rfl ((hareas p).mp ((hsame p).mpr hp)).2
    · have hprev := h.absorbPrev_clear hclear fun p hp hpj => hjoin ⟨p, hp, hpj⟩
      rw [insertArea_of_absorbNext_none hne hprev (h.absorbNext_overlap ha hafter.le hbefore)]
      exact ⟨fun _ hj => absurd hj hjoin, fun _ _ => Iff.rfl⟩

/-- What keeps a rejected insertion from losing an area: no area with the same flags ends where
the new one begins, or no other area meets the new one, or one has its first address. -/
def KeepsOnReject (t : VmaTree) (area : MemoryArea) : Prop :=
  area.start.asU64 < area.end.asU64 →
    (∃ p ∈ t.areasInOrder, p.end.asU64 = area.start.asU64 ∧ p.flags = area.flags) →
    (∃ a ∈ t.areasInOrder, a.Intersects area) →
    ∃ a ∈ t.areasInOrder, a.contains area.start = true

/-- A rejected insertion leaves the areas as they are exactly then. -/
theorem Good.rejected_iff (h : t.Good) (area : MemoryArea) :
    ((∃ e, (t.insertArea area).1 = .error e) →
      ∀ a, a ∈ (t.insertArea area).2.areasInOrder ↔ a ∈ t.areasInOrder) ↔
    t.KeepsOnReject area := by
  have herr := (insertArea_exact h.repInv area).1
  unfold KeepsOnReject
  simp only [areasInOrder_eq] at herr ⊢
  by_cases hne : area.start.asU64 < area.end.asU64
  · by_cases hmeets : ∃ a ∈ areas t.root, a.Intersects area
    · have hrej := h.insertArea_rejected hne hmeets
      constructor
      · exact fun hsame _ hjoin _ => hrej.mp (hsame (herr.mpr (.inr hmeets))) hjoin
      · exact fun hcond _ => hrej.mpr fun hjoin => hcond hne hjoin hmeets
    · refine ⟨fun _ _ _ hm => absurd hm hmeets, fun _ hfail => ?_⟩
      rcases herr.mp hfail with hempty | hm
      · exact absurd hne (not_lt.mpr hempty)
      · exact absurd hm hmeets
  · refine ⟨fun _ hlt => absurd hlt hne, fun _ _ => ?_⟩
    rw [VmaTree.insertArea, if_pos (not_lt.mp hne)]
    exact fun _ => Iff.rfl

/-- A rejected insertion into a tree that insertions have made leaves its areas as they are,
unless an area with the same flags ends where the new one begins, another area meets the new one
and none has its first address. -/
theorem insertArea_rejected_iff (calls : List MemoryArea) (area : MemoryArea) :
    ((∃ e, ((run calls).insertArea area).1 = .error e) →
      ∀ a, a ∈ ((run calls).insertArea area).2.areasInOrder ↔ a ∈ (run calls).areasInOrder) ↔
    (area.start.asU64 < area.end.asU64 →
      (∃ p ∈ (run calls).areasInOrder, p.end.asU64 = area.start.asU64 ∧ p.flags = area.flags) →
      (∃ a ∈ (run calls).areasInOrder, a.Intersects area) →
      ∃ a ∈ (run calls).areasInOrder, a.contains area.start = true) :=
  (run_good calls).rejected_iff area

/-- Two areas with a gap between them, and a new one that fills the gap and more: the insertion is
rejected, and the area before the gap is gone. -/
theorem insertArea_loses_area :
    let t := run [.new ⟨0x1000⟩ ⟨0x2000⟩ .WRITABLE, .new ⟨0x3000⟩ ⟨0x4000⟩ .WRITABLE]
    let area : MemoryArea := .new ⟨0x2000⟩ ⟨0x3800⟩ .WRITABLE
    (t.insertArea area).1 = .error .InvalidAccess ∧
      t.areasInOrder = [.new ⟨0x1000⟩ ⟨0x2000⟩ .WRITABLE, .new ⟨0x3000⟩ ⟨0x4000⟩ .WRITABLE] ∧
      (t.insertArea area).2.areasInOrder = [.new ⟨0x3000⟩ ⟨0x4000⟩ .WRITABLE] := by
  refine ⟨?_, ?_, ?_⟩
  · decide +kernel
  · decide +kernel
  · decide +kernel

end BoruixKernel.VmaTree
