import BoruixKernel.Mm.VmaTreeInvariant

/-!
# What an insertion does to the map of addresses

A tree describes a partial function from addresses to flags.  The insertion loop takes
neighbours out of the tree and widens the new area by them.  `Absorbed` relates the tree and
the area of a round to the ones the loop started with: what is gone from the tree has the
flags of the new area and no address in common with it, and the widened area has the addresses
of the new area and of what is gone.
-/

namespace BoruixKernel

open List MemoryArea

/-- The two areas have no address in common. -/
def MemoryArea.Apart (a b : MemoryArea) : Prop := ¬ a.Intersects b

instance : Std.Symm MemoryArea.Apart := ⟨fun _ _ h hi => h hi.symm⟩

/-- Areas of the list that have an address in common are the same. -/
theorem AreasApart.eq_of_intersects (h : AreasApart as) (ha : a ∈ as) (hb : b ∈ as)
    (hab : a.Intersects b) : a = b := by
  have hapart : as.Pairwise MemoryArea.Apart :=
    h.apart.imp fun hab => not_intersects_of_le hab.1
  by_contra hne
  exact hapart.forall ha hb hne hab

namespace VmaTree

/-- The flags that a tree gives to an address. -/
def flagsAt (t : VmaTree) (addr : VirtAddr) : Option PageTableFlags :=
  (t.areasInOrder.find? (·.contains addr)).map (·.flags)

theorem Good.flagsAt_eq_some {t : VmaTree} (h : t.Good) {addr : VirtAddr} {flags : PageTableFlags} :
    t.flagsAt addr = some flags ↔ ∃ a ∈ areas t.root, a.contains addr = true ∧ a.flags = flags := by
  rw [flagsAt, areasInOrder_eq, Option.map_eq_some_iff]
  constructor
  · rintro ⟨a, hfind, hflags⟩
    exact ⟨a, mem_of_find?_eq_some hfind, find?_some (p := fun a : MemoryArea => a.contains addr) hfind, hflags⟩
  · rintro ⟨a, ha, hin, hflags⟩
    have hsome : ((areas t.root).find? (·.contains addr)).isSome := by
      rw [find?_isSome]
      exact ⟨a, ha, hin⟩
    obtain ⟨b, hb⟩ := Option.isSome_iff_exists.mp hsome
    have heq : b = a := h.apart.eq_of_intersects (mem_of_find?_eq_some hb) ha
      ⟨addr, find?_some (p := fun a : MemoryArea => a.contains addr) hb, hin⟩
    exact ⟨b, hb, heq ▸ hflags⟩

/-! ## The loop -/

/-- A round of the loop against its beginning. -/
structure Absorbed (t : Link) (new : MemoryArea) (root : Link) (area : MemoryArea) : Prop where
  kept : areas root ⊆ areas t
  flags : area.flags = new.flags
  covers : ∀ addr, area.contains addr = true ↔
    new.contains addr = true ∨ ∃ a ∈ areas t, a ∉ areas root ∧ a.contains addr = true
  gone : ∀ a ∈ areas t, a ∉ areas root → a.flags = new.flags ∧ ¬ a.Intersects new

variable {t root root' : Link} {new area area' : MemoryArea}

theorem Absorbed.refl (t : Link) (new : MemoryArea) : Absorbed t new t new where
  kept := fun _ h => h
  flags := rfl
  covers addr := by
    constructor
    · exact .inl
    · rintro (h | ⟨a, ha, hna, -⟩)
      · exact h
      · exact absurd ha hna
  gone a ha hna := absurd ha hna

section

variable (h : Absorbed t new root area)

include h

/-- One more area is taken out, and the new area is widened by it. -/
theorem Absorbed.join (hinv : LoopInv root area) (hc : c ∈ areas root)
    (hflags : c.flags = area.flags) (hapart : ¬ c.Intersects area)
    (hflags' : area'.flags = area.flags)
    (hcovers : ∀ addr, area'.contains addr = true ↔ area.contains addr = true ∨ c.contains addr = true) :
    Absorbed t new (removeNode root c.start.asU64).1 area' := by
  -- The area that is gone now is the one that starts where `c` does.
  have hareas : ∀ a, a ∈ areas (removeNode root c.start.asU64).1 ↔
      a ∈ areas root ∧ a.start.asU64 ≠ c.start.asU64 := by
    intro a
    rw [areas_removeNode hinv.shaped hinv.apart.sorted, mem_filter]
    simp
  have hgone : ∀ a ∈ areas t, a ∉ areas (removeNode root c.start.asU64).1 → a = c ∨ a ∉ areas root := by
    intro a _ hna
    by_cases har : a ∈ areas root
    · left
      have hstart : a.start.asU64 = c.start.asU64 := by
        by_contra hne
        exact hna ((hareas a).mpr ⟨har, hne⟩)
      refine hinv.apart.eq_of_intersects har hc ⟨a.start, ?_, ?_⟩
      · exact contains_start (hinv.apart.nonempty a har)
      · exact contains_iff.mpr ⟨hstart.ge, hstart ▸ hinv.apart.nonempty c hc⟩
    · exact .inr har
  refine ⟨fun a ha => h.kept ((hareas a).mp ha).1, hflags'.trans h.flags, fun addr => ?_,
    fun a ha hna => ?_⟩
  · rw [hcovers addr, h.covers addr]
    constructor
    · rintro ((hnew | ⟨a, ha, hna, hin⟩) | hin)
      · exact .inl hnew
      · exact .inr ⟨a, ha, fun hmem => hna ((hareas a).mp hmem).1, hin⟩
      · exact .inr ⟨c, h.kept hc, fun hmem => ((hareas c).mp hmem).2 rfl, hin⟩
    · rintro (hnew | ⟨a, ha, hna, hin⟩)
      · exact .inl (.inl hnew)
      · rcases hgone a ha hna with rfl | hna
        · exact .inr hin
        · exact .inl (.inr ⟨a, ha, hna, hin⟩)
  · rcases hgone a ha hna with rfl | hna
    · refine ⟨hflags.trans h.flags, ?_⟩
      rintro ⟨addr, hin, hnew⟩
      exact hapart ⟨addr, hin, (h.covers addr).mpr (.inl hnew)⟩
    · exact h.gone a ha hna

theorem Absorbed.half (hinv : LoopInv root area)
    (hr : Half root area Clear (some (root', area', merged))) : Absorbed t new root' area' := by
  cases hr with
  | clear => exact h
  | taken hb hflags hflags' hapart hcovers => exact h.join hinv hb hflags hapart hflags' hcovers

/-- An area of the tree that meets the widened area meets the new one: it has no address in
common with what is gone. -/
theorem Absorbed.intersects (hap : AreasApart (areas t)) {a : MemoryArea} (ha : a ∈ areas root)
    (hi : a.Intersects area) : a.Intersects new := by
  obtain ⟨addr, hin, harea⟩ := hi
  rcases (h.covers addr).mp harea with hnew | ⟨c, hc, hnc, hcin⟩
  · exact ⟨addr, hin, hnew⟩
  · have heq := hap.eq_of_intersects (h.kept ha) hc ⟨addr, hin, hcin⟩
    exact absurd (heq ▸ ha) hnc

theorem Absorbed.rejected (hap : AreasApart (areas t)) (hr : Half root area Clear none) :
    ∃ a ∈ areas t, a.Intersects new := by
  cases hr with
  | rejected hb hi => exact ⟨_, h.kept hb, h.intersects hap hb hi⟩

end

/-- The loop ends with an error only at an area that meets the new one, and otherwise with a
round that is related to the beginning. -/
theorem insertLoop_absorbed (hap : AreasApart (areas t)) (h : Absorbed t new root area)
    (hinv : LoopInv root area) (hr : insertLoop fuel root area = some (res, root')) :
    (∀ e, res = .error e → ∃ a ∈ areas t, a.Intersects new) ∧
      ∀ area', res = .ok area' → Absorbed t new root' area' := by
  induction fuel generalizing root area with
  | zero => cases hr
  | succ fuel ih =>
    rw [insertLoop] at hr
    have hprev := absorbPrev_half hinv
    cases hp : absorbPrev root area with
    | none =>
      rw [hp] at hr hprev
      cases hr
      exact ⟨fun _ _ => h.rejected hap hprev, by simp⟩
    | some r1 =>
      obtain ⟨root1, area1, merged1⟩ := r1
      rw [hp] at hprev
      have h1 := h.half hinv hprev
      have hinv1 := (hprev.spec hinv).1
      have hnext := absorbNext_half hinv1
      simp only [hp] at hr
      cases hn : absorbNext root1 area1 with
      | none =>
        rw [hn] at hr hnext
        cases hr
        exact ⟨fun _ _ => h1.rejected hap hnext, by simp⟩
      | some r2 =>
        obtain ⟨root2, area2, merged2⟩ := r2
        rw [hn] at hnext
        have h2 := h1.half hinv1 hnext
        simp only [hn] at hr
        split at hr
        next => exact ih h2 (hnext.spec hinv1).1 hr
        next =>
          cases hr
          exact ⟨by simp, fun area' heq => by cases heq; exact h2⟩

/-! ## The insertion -/

theorem RepInv.good {t : VmaTree} (h : t.RepInv) : t.Good := by
  have hsorted : (areas t.root).Pairwise fun a b => a.start.asU64 < b.start.asU64 := by
    have hs := (BinaryTree.searchTree_iff_pairwise _ _).mp h.search
    rw [pairwise_map] at hs
    rw [areas, pairwise_map]
    exact hs
  refine ⟨?_, h.nonempty, ?_⟩
  · -- The three parts of the shape hold at every node of every subtree.
    have hshape : ∀ u : Link, (∀ n ∈ u.inorder, n.key = n.area.start.asU64) →
        (∀ n ∈ u.inorder, n.prio = splitmix64 n.key) → u.HeapOrdered IntervalNode.prio →
        u.CachesMax IntervalNode.maxEnd (fun n => n.area.end.asU64) → Shaped u := by
      intro u
      induction u with
      | nil => exact fun _ _ _ _ => trivial
      | node n l r ihl ihr =>
        intro hkey hprio hheap hmax
        have hl : ∀ m ∈ l.inorder, m ∈ (BinaryTree.node n l r).inorder := fun m hm => by simp [hm]
        have hr : ∀ m ∈ r.inorder, m ∈ (BinaryTree.node n l r).inorder := fun m hm => by simp [hm]
        refine ⟨⟨⟨hkey n (by simp), hprio n (by simp)⟩, fun a ha => ?_, ?_⟩,
          ihl (fun m hm => hkey m (hl m hm)) (fun m hm => hprio m (hl m hm)) hheap.2.1 hmax.2.1,
          ihr (fun m hm => hkey m (hr m hm)) (fun m hm => hprio m (hr m hm)) hheap.2.2 hmax.2.2⟩
        · rw [areas, areas, ← map_append, mem_map] at ha
          obtain ⟨m, hm, rfl⟩ := ha
          have hmem : m ∈ (BinaryTree.node n l r).inorder := by
            rcases mem_append.mp hm with hm | hm
            · exact hl m hm
            · exact hr m hm
          rw [MemoryArea.prio, ← hkey m hmem, ← hprio m hmem]
          exact hheap.1 m hm
        · have hgreatest := hmax.1
          simp only [areas, mem_map, exists_exists_and_eq_and]
          exact hgreatest
    exact hshape t.root h.key_eq h.prio_eq h.heap h.maxEnd
  · refine (hsorted.and h.disjoint).imp_of_mem fun {a b} ha hb hab => ⟨?_, fun hj => ?_⟩
    · rcases hab.2 with hle | hle
      · exact hle
      · exact absurd (hab.1.trans ((h.nonempty b hb).trans_le hle)) (lt_irrefl _)
    · exact h.unjoined a ha b hb hj.1 hj.2

/-- What an insertion into a good tree does: it is rejected at an area that meets the new one,
or the tree has the areas that were not taken in and the widened area. -/
theorem Good.insertArea_cases {t : VmaTree} (h : t.Good) (area : MemoryArea)
    (hne : area.start.asU64 < area.end.asU64) :
    ((∃ e, (t.insertArea area).1 = .error e) ∧ ∃ a ∈ areas t.root, a.Intersects area) ∨
      ((t.insertArea area).1 = .ok () ∧ ∃ root' area', Absorbed t.root area root' area' ∧
        Fits area' (areas root') ∧
        ∀ a, a ∈ areas (t.insertArea area).2.root ↔ a = area' ∨ a ∈ areas root') := by
  have hinv : LoopInv t.root area := ⟨h.shaped, h.apart, hne⟩
  obtain ⟨res, root', heq, hsh, hap, hok⟩ :=
    insertLoop_spec (t.root.numNodes + 1) hinv (Nat.lt_succ_self _)
  obtain ⟨herr, habs⟩ := insertLoop_absorbed h.apart (.refl t.root area) hinv heq
  cases res with
  | error e =>
    left
    refine ⟨⟨e, ?_⟩, herr e rfl⟩
    rw [VmaTree.insertArea, if_neg (not_le.mpr hne), heq]
  | ok area' =>
    right
    have hins : t.insertArea area = (.ok (), ⟨BoruixKernel.insertNode root' (.new area')⟩) := by
      rw [VmaTree.insertArea, if_neg (not_le.mpr hne), heq]
    refine ⟨by rw [hins], root', area', habs area' rfl, (hok area' rfl).2, fun a => ?_⟩
    rw [hins, areas_insertNode hsh hap.sorted]
    simp only [mem_append, mem_cons, mem_filter, decide_eq_true_eq]
    constructor
    · rintro (⟨ha, -⟩ | rfl | ⟨ha, -⟩)
      · exact .inr ha
      · exact .inl rfl
      · exact .inr ha
    · rintro (rfl | ha)
      · exact .inr (.inl rfl)
      · rcases lt_or_ge a.start.asU64 area'.start.asU64 with hlt | hge
        · exact .inl ⟨ha, hlt⟩
        · exact .inr (.inr ⟨ha, hge⟩)

/-- The widened area ends where the new one or one that is gone does. -/
theorem Absorbed.end_mem (h : Absorbed t new root area) (hnew : new.start.asU64 < new.end.asU64)
    (hap : AreasApart (areas t)) : ∃ b ∈ new :: areas t, area.end = b.end := by
  obtain ⟨hge, hlt⟩ := contains_iff.mp ((h.covers _).mpr (.inl (contains_start hnew)))
  -- The area that has the last address has no address behind it.
  have hends (b : MemoryArea) (hne : b.start.asU64 < b.end.asU64)
      (hlast : b.contains ⟨area.end.asU64 - 1⟩ = true)
      (hin : ∀ addr, b.contains addr = true → area.contains addr = true) : area.end = b.end := by
    have hb := hin ⟨b.end.asU64 - 1⟩
    simp only [contains_iff] at hlast hb
    refine VirtAddr.ext ?_
    grind
  have hlast : area.contains ⟨area.end.asU64 - 1⟩ = true := by
    rw [contains_iff]
    grind
  rcases (h.covers _).mp hlast with hin | ⟨b, hb, hgone, hin⟩
  · exact ⟨new, mem_cons_self, hends new hnew hin fun addr ha => (h.covers addr).mpr (.inl ha)⟩
  · exact ⟨b, mem_cons_of_mem _ hb, hends b (hap.nonempty b hb) hin fun addr ha =>
      (h.covers addr).mpr (.inr ⟨b, hb, hgone, ha⟩)⟩

/-- Every area of the tree after an insertion ends where the new area or one that was
there before does. -/
theorem Good.insertArea_ends {t : VmaTree} (h : t.Good) (area : MemoryArea)
    (hok : (t.insertArea area).1 = .ok ()) (ha : a ∈ areas (t.insertArea area).2.root) :
    ∃ b ∈ area :: areas t.root, a.end = b.end := by
  by_cases hne : area.start.asU64 < area.end.asU64
  · rcases h.insertArea_cases area hne with ⟨⟨e, herr⟩, -⟩ | ⟨-, root', area', habs, -, hareas⟩
    · rw [herr] at hok
      cases hok
    · rcases (hareas a).mp ha with rfl | ha
      · exact habs.end_mem hne h.apart
      · exact ⟨a, mem_cons_of_mem _ (habs.kept ha), rfl⟩
  · rw [VmaTree.insertArea, if_pos (not_lt.mp hne)] at hok
    cases hok

/-- An insertion fails exactly if the area is empty or meets an area of the tree, and otherwise
extends the map of addresses by the addresses of the area. -/
theorem insertArea_exact {t : VmaTree} (h : t.RepInv) (area : MemoryArea) :
    ((∃ e, (t.insertArea area).1 = .error e) ↔
      area.end.asU64 ≤ area.start.asU64 ∨ ∃ a ∈ t.areasInOrder, a.Intersects area) ∧
    ((t.insertArea area).1 = .ok () → ∀ addr, (t.insertArea area).2.flagsAt addr =
      if area.contains addr then some area.flags else t.flagsAt addr) := by
  have hgood := h.good
  have hgood' : (t.insertArea area).2.Good := hgood.insertArea area
  rw [areasInOrder_eq]
  by_cases hne : area.start.asU64 < area.end.asU64
  · rcases hgood.insertArea_cases area hne with
      ⟨⟨e, herr⟩, hmeets⟩ | ⟨hok, root', area', habs, hfits, hareas⟩
    · refine ⟨⟨fun _ => .inr hmeets, fun _ => ⟨e, herr⟩⟩, fun hok => ?_⟩
      rw [herr] at hok
      cases hok
    · -- Nothing that is left meets the widened area, and nothing that is gone the new one.
      have hapart : ∀ a ∈ areas t.root, ¬ a.Intersects area := by
        rintro a ha ⟨addr, hin, hnew⟩
        by_cases har : a ∈ areas root'
        · have hwide := (habs.covers addr).mpr (.inl hnew)
          rcases hfits a har with ⟨hle, -⟩ | ⟨hle, -⟩
          · exact not_intersects_of_le hle ⟨addr, hin, hwide⟩
          · exact not_intersects_of_le hle ⟨addr, hwide, hin⟩
        · exact (habs.gone a ha har).2 ⟨addr, hin, hnew⟩
      refine ⟨⟨?_, ?_⟩, fun _ addr => ?_⟩
      · rintro ⟨e, herr⟩
        rw [hok] at herr
        cases herr
      · rintro (hempty | ⟨a, ha, hi⟩)
        · exact absurd hne (not_lt.mpr hempty)
        · exact absurd hi (hapart a ha)
      · refine Option.ext fun flags => ?_
        rw [hgood'.flagsAt_eq_some]
        split
        next hin =>
          constructor
          · rintro ⟨a, ha, hin', rfl⟩
            rcases (hareas a).mp ha with rfl | ha
            · rw [habs.flags]
            · exact absurd ⟨addr, hin', hin⟩ (hapart a (habs.kept ha))
          · rintro ⟨⟩
            exact ⟨area', (hareas area').mpr (.inl rfl), (habs.covers addr).mpr (.inl hin), habs.flags⟩
        next hout =>
          rw [hgood.flagsAt_eq_some]
          constructor
          · rintro ⟨a, ha, hin', rfl⟩
            rcases (hareas a).mp ha with rfl | ha
            · rcases (habs.covers addr).mp hin' with hin | ⟨b, hb, hnb, hbin⟩
              · exact absurd hin hout
              · exact ⟨b, hb, hbin, (habs.gone b hb hnb).1.trans habs.flags.symm⟩
            · exact ⟨a, habs.kept ha, hin', rfl⟩
          · rintro ⟨a, ha, hin', rfl⟩
            by_cases har : a ∈ areas root'
            · exact ⟨a, (hareas a).mpr (.inr har), hin', rfl⟩
            · refine ⟨area', (hareas area').mpr (.inl rfl), (habs.covers addr).mpr (.inr ⟨a, ha, har, hin'⟩), ?_⟩
              rw [habs.flags, (habs.gone a ha har).1]
  · have hins : t.insertArea area = (.error .InvalidAccess, t) := by
      rw [insertArea, if_pos (not_lt.mp hne)]
    refine ⟨⟨fun _ => .inl (not_lt.mp hne), fun _ => ⟨_, by rw [hins]⟩⟩, fun hok => ?_⟩
    rw [hins] at hok
    cases hok

def onePage : VmaTree := run [.new ⟨0x1000⟩ ⟨0x2000⟩ .WRITABLE]

/-- A page next to an area with the same flags, and one that overlaps it. -/
theorem insertArea_exact_onePage : onePage.RepInv ∧
    ((onePage.insertArea (.new ⟨0x2000⟩ ⟨0x3000⟩ .WRITABLE)).1 = .ok () ∧
      (onePage.insertArea (.new ⟨0x2000⟩ ⟨0x3000⟩ .WRITABLE)).2.flagsAt ⟨0x2fff⟩ = some .WRITABLE) ∧
    ∃ e, (onePage.insertArea (.new ⟨0x1800⟩ ⟨0x3000⟩ .WRITABLE)).1 = .error e := by
  have hrep : onePage.RepInv := (run_good _).repInv
  have hok : (onePage.insertArea (.new ⟨0x2000⟩ ⟨0x3000⟩ .WRITABLE)).1 = .ok () := by
    decide +kernel
  refine ⟨hrep, ⟨hok, ?_⟩, ?_⟩
  · rw [(insertArea_exact hrep _).2 hok, if_pos (by decide)]
    rfl
  · exact (insertArea_exact hrep _).1.mpr (.inr ⟨.new ⟨0x1000⟩ ⟨0x2000⟩ .WRITABLE, by decide +kernel,
      ⟨0x1900⟩, by decide, by decide⟩)

end VmaTree

end BoruixKernel
