import BoruixKernel.Mm.VmaTree

/-!
# The representation invariant of the VMA tree

The invariant has two parts.  `Shaped` is about the tree: keys and priorities belong
to the areas, priorities are heap ordered and `max_end` is the maximum of the
subtree.  `AreasApart` is about the in-order list of areas: they are non-empty,
follow one another without overlap, and adjacent ones have different flags.

`merge` concatenates the area lists and `split` cuts the list of a sorted tree at
the key, so each tree operation has one equation on lists and one lemma about
`Shaped`.  The lookups are the last and first elements of the two cuts.  The
insertion loop is then followed on lists alone.
-/

namespace BoruixKernel

open List UInt64 MemoryArea BinaryTree

/-! ## Areas of a tree -/

def areas (t : Link) : List MemoryArea := t.inorder.map IntervalNode.area

@[simp] theorem areas_nil : areas .nil = [] := rfl

@[simp] theorem areas_node (n : IntervalNode) (l r : Link) :
    areas (.node n l r) = areas l ++ n.area :: areas r := by
  simp [areas]

/-- The traversal visits the rest of the current tree, then what the stack holds. -/
theorem forEachInOrder_eq (cur : Link) (stack : List (IntervalNode × Link)) :
    forEachInOrder cur stack = areas cur ++ stack.flatMap fun p => p.1.area :: areas p.2 := by
  fun_induction forEachInOrder cur stack with
  | case1 stack n left right ih => simp [ih]
  | case2 n right stack ih => simp [ih]
  | case3 => rfl

theorem length_areas (t : Link) : (areas t).length = t.numNodes := by
  rw [areas, length_map, length_inorder]

@[simp] theorem recalc_area (n : IntervalNode) (l r : Link) : (n.recalc l r).area = n.area := rfl

@[simp] theorem recalc_key (n : IntervalNode) (l r : Link) : (n.recalc l r).key = n.key := rfl

@[simp] theorem recalc_prio (n : IntervalNode) (l r : Link) : (n.recalc l r).prio = n.prio := rfl

theorem areas_merge (a b : Link) : areas (merge a b) = areas a ++ areas b := by
  fun_induction merge a b with
  | case1 r => rfl
  | case2 l _ => simp
  | case3 l ll lr r rl rr _ right ih => simp [right, ih]
  | case4 l ll lr r rl rr _ left ih => simp [left, ih]

/-- Splitting only cuts the list of areas. -/
theorem areas_split (t : Link) (key : UInt64) :
    areas (split t key).1 ++ areas (split t key).2 = areas t := by
  induction t with
  | nil => rfl
  | node n l r ihl ihr =>
    rw [split]
    split
    · simp [← ihl]
    · simp [← ihr]

/-! ## Shape -/

/-- The key of a node is the start of its area and the priority hashes the key. -/
def IntervalNode.Keyed (n : IntervalNode) : Prop :=
  n.key = n.area.start.asU64 ∧ n.prio = splitmix64 n.key

def MemoryArea.prio (a : MemoryArea) : UInt64 := splitmix64 a.start.asU64

/-- Every node is keyed by its area, has the largest priority of its subtree and
caches the largest end of its subtree. -/
def Shaped (t : Link) : Prop :=
  t.Everywhere fun n l r => n.Keyed ∧ (∀ a ∈ areas l ++ areas r, a.prio ≤ n.prio) ∧
    IsGreatest {e | ∃ a ∈ areas (.node n l r), a.end.asU64 = e} n.maxEnd

variable {n : IntervalNode} {l r t : Link} {a : MemoryArea} {as : List MemoryArea}

section

variable (h : Shaped (.node n l r))

include h

theorem Shaped.left : Shaped l := h.2.1

theorem Shaped.right : Shaped r := h.2.2

theorem Shaped.keyed : n.Keyed := h.1.1

theorem Shaped.prio_le (ha : a ∈ areas (.node n l r)) : a.prio ≤ n.prio := by
  rw [areas_node] at ha
  rcases mem_append.mp ha with ha | ha
  · exact h.1.2.1 a (by simp [ha])
  · rcases mem_cons.mp ha with rfl | ha
    · rw [h.keyed.2, h.keyed.1]
      exact le_refl _
    · exact h.1.2.1 a (by simp [ha])

/-- The cached maximum bounds every end of the subtree. -/
theorem Shaped.end_le (ha : a ∈ areas (.node n l r)) : a.end.asU64 ≤ n.maxEnd :=
  h.1.2.2.2 ⟨a, ha, rfl⟩

end

/-- `childMax` is an upper bound, and is the start value or the end of an area of
the child. -/
theorem childMax_spec (hc : Shaped c) (m : UInt64) :
    m ≤ childMax c m ∧ (∀ a ∈ areas c, a.end.asU64 ≤ childMax c m) ∧
      (childMax c m = m ∨ ∃ a ∈ areas c, a.end.asU64 = childMax c m) := by
  cases c with
  | nil => simp [childMax]
  | node n l r =>
    obtain ⟨b, hb, hbe⟩ := hc.1.2.2.1
    by_cases hgt : n.maxEnd > m
    · simp only [childMax, hgt, if_true]
      exact ⟨hgt.le, fun a ha => hc.end_le ha, Or.inr ⟨b, hb, hbe⟩⟩
    · simp only [childMax, hgt, if_false]
      exact ⟨le_refl _, fun a ha => (hc.end_le ha).trans (le_of_not_gt hgt), Or.inl trivial⟩

/-- A node over shaped children, with its cache recomputed. -/
theorem Shaped.recalc (hn : n.Keyed) (hl : Shaped l) (hr : Shaped r)
    (hp : ∀ a ∈ areas l ++ areas r, a.prio ≤ n.prio) : Shaped (.node (n.recalc l r) l r) := by
  obtain ⟨hml, hbl, hel⟩ := childMax_spec hl n.area.end.asU64
  obtain ⟨hmr, hbr, her⟩ := childMax_spec hr (childMax l n.area.end.asU64)
  refine ⟨⟨hn, hp, ?_, ?_⟩, hl, hr⟩
  · -- the cached value is attained: at a right area, a left area or the node itself
    simp only [areas_node, recalc_area, mem_append, mem_cons, Set.mem_ofPred_eq]
    rcases her with her | ⟨a, ha, hae⟩
    · rcases hel with hel | ⟨a, ha, hae⟩
      · exact ⟨n.area, Or.inr (Or.inl rfl), (her.trans hel).symm⟩
      · exact ⟨a, Or.inl ha, hae.trans her.symm⟩
    · exact ⟨a, Or.inr (Or.inr ha), hae⟩
  · rintro e ⟨a, ha, rfl⟩
    simp only [areas_node, recalc_area, mem_append, mem_cons] at ha
    rcases ha with ha | rfl | ha
    · exact (hbl a ha).trans hmr
    · exact hml.trans hmr
    · exact hbr a ha

theorem Shaped.single (a : MemoryArea) : Shaped (.node (.new a) .nil .nil) := by
  refine ⟨⟨⟨rfl, rfl⟩, by simp, ?_⟩, trivial, trivial⟩
  simp [IntervalNode.new, IsGreatest, upperBounds]

theorem Shaped.merge {a b : Link} (ha : Shaped a) (hb : Shaped b) : Shaped (merge a b) := by
  fun_induction BoruixKernel.merge a b with
  | case1 r => exact hb
  | case2 l _ => exact ha
  | case3 l ll lr r rl rr hge right ih =>
    refine Shaped.recalc ha.keyed ha.left (ih ha.right hb) ?_
    intro x hx
    simp only [right, areas_merge, mem_append] at hx
    rcases hx with hx | hx | hx
    · exact ha.prio_le (by simp [hx])
    · exact ha.prio_le (by simp [hx])
    · exact (hb.prio_le hx).trans hge
  | case4 l ll lr r rl rr hlt left ih =>
    refine Shaped.recalc hb.keyed (ih ha hb.left) hb.right ?_
    intro x hx
    simp only [left, areas_merge, mem_append] at hx
    rcases hx with (hx | hx) | hx
    · exact (ha.prio_le hx).trans (le_of_not_ge hlt)
    · exact hb.prio_le (by simp [hx])
    · exact hb.prio_le (by simp [hx])

theorem Shaped.split (ht : Shaped t) (key : UInt64) :
    Shaped (split t key).1 ∧ Shaped (split t key).2 := by
  induction t with
  | nil => exact ⟨trivial, trivial⟩
  | node n l r ihl ihr =>
    obtain ⟨hl1, hl2⟩ := ihl ht.left
    obtain ⟨hr1, hr2⟩ := ihr ht.right
    rw [BoruixKernel.split]
    split
    · refine ⟨hl1, Shaped.recalc ht.keyed hl2 ht.right ?_⟩
      intro a ha
      apply ht.prio_le
      rw [areas_node, ← areas_split l key]
      simp only [mem_append, mem_cons] at ha ⊢
      tauto
    · refine ⟨Shaped.recalc ht.keyed ht.left hr1 ?_, hr2⟩
      intro a ha
      apply ht.prio_le
      rw [areas_node, ← areas_split r key]
      simp only [mem_append, mem_cons] at ha ⊢
      tauto

/-! ## Sorted areas -/

def StartsSorted (as : List MemoryArea) : Prop :=
  as.Pairwise fun a b => a.start.asU64 < b.start.asU64

theorem StartsSorted.right {as bs : List MemoryArea} (h : StartsSorted (as ++ bs)) :
    StartsSorted bs := (pairwise_append.mp h).2.1

/-- Areas of a sorted list that start at the same address are the same. -/
theorem StartsSorted.eq_of_start (h : StartsSorted as) (ha : a ∈ as) (hb : b ∈ as)
    (hab : a.start.asU64 = b.start.asU64) : a = b := by
  by_contra hne
  have hsymm : Std.Symm fun a b : MemoryArea => a.start.asU64 ≠ b.start.asU64 :=
    ⟨fun _ _ h => h.symm⟩
  have hstarts : as.Pairwise fun a b => a.start.asU64 ≠ b.start.asU64 := h.imp fun hlt => hlt.ne
  exact hstarts.forall ha hb hne hab

/-- What a sorted node says about its subtrees. -/
theorem StartsSorted.node (h : StartsSorted (areas (.node n l r))) :
    StartsSorted (areas l) ∧ StartsSorted (areas r) ∧
      (∀ a ∈ areas l, a.start.asU64 < n.area.start.asU64) ∧
      ∀ a ∈ areas r, n.area.start.asU64 < a.start.asU64 := by
  rw [areas_node, StartsSorted, pairwise_append, pairwise_cons] at h
  exact ⟨h.1, h.2.1.2, fun a ha => h.2.2 a ha _ (by simp), h.2.1.1⟩

theorem split_starts (ht : Shaped t) (hs : StartsSorted (areas t)) (key : UInt64) :
    (∀ a ∈ areas (split t key).1, a.start.asU64 < key) ∧
      ∀ a ∈ areas (split t key).2, key ≤ a.start.asU64 := by
  induction t with
  | nil => simp [split]
  | node n l r ihl ihr =>
    obtain ⟨hsl, hsr, hltl, hltr⟩ := hs.node
    have hkey := ht.keyed.1
    rw [split]
    split
    next hle =>
      refine ⟨(ihl ht.left hsl).1, ?_⟩
      intro a ha
      simp only [areas_node, recalc_area, mem_append, mem_cons] at ha
      rcases ha with ha | rfl | ha
      · exact (ihl ht.left hsl).2 a ha
      · exact hkey ▸ hle
      · exact (hkey ▸ hle).trans (hltr a ha).le
    next hgt =>
      refine ⟨?_, (ihr ht.right hsr).2⟩
      intro a ha
      simp only [areas_node, recalc_area, mem_append, mem_cons] at ha
      have hlt : n.area.start.asU64 < key := hkey ▸ lt_of_not_ge hgt
      rcases ha with ha | rfl | ha
      · exact (hltl a ha).trans hlt
      · exact hlt
      · exact (ihr ht.right hsr).1 a ha

/-- A list cut where a predicate changes is the two filters of the list. -/
theorem filter_of_append (h : as ++ bs = cs) (ha : ∀ a ∈ as, p a = true)
    (hb : ∀ b ∈ bs, p b = false) :
    as = cs.filter p ∧ bs = cs.filter fun a => !p a := by
  subst h
  constructor
  · rw [filter_append, filter_eq_self.mpr ha, filter_eq_nil_iff.mpr, append_nil]
    intro b hbm
    simp [hb b hbm]
  · rw [filter_append, filter_eq_nil_iff.mpr, nil_append, filter_eq_self.mpr]
    · intro b hbm
      simp [hb b hbm]
    · intro a ham
      simp [ha a ham]

section

variable (ht : Shaped t) (hs : StartsSorted (areas t)) (key : UInt64)

include ht hs key

theorem areas_split_fst : areas (split t key).1 = (areas t).filter (·.start.asU64 < key) := by
  obtain ⟨hlt, hge⟩ := split_starts ht hs key
  exact (filter_of_append (areas_split t key) (by simpa using hlt) (by simpa using hge)).1

theorem areas_split_snd : areas (split t key).2 = (areas t).filter (key ≤ ·.start.asU64) := by
  obtain ⟨hlt, hge⟩ := split_starts ht hs key
  rw [(filter_of_append (p := (·.start.asU64 < key)) (areas_split t key) (by simpa using hlt)
    (by simpa using hge)).2]
  apply filter_congr
  intro a _
  rw [← decide_not]
  exact decide_eq_decide.mpr not_lt

/-! ## Lookups -/

/-- `find_prev` is the last area that starts at or below the key. -/
theorem findPrevFrom_eq (res : Option MemoryArea) :
    findPrevFrom key t res = ((areas t).filter (·.start.asU64 ≤ key)).getLast?.or res := by
  induction t generalizing res with
  | nil => rfl
  | node n l r ihl ihr =>
    obtain ⟨hsl, hsr, hltl, hltr⟩ := hs.node
    have hkey := ht.keyed.1
    rw [findPrevFrom, areas_node, filter_append, filter_cons]
    split
    next hlt =>
      have hr : (areas r).filter (·.start.asU64 ≤ key) = [] := by
        rw [filter_eq_nil_iff]
        intro a ha
        simpa using (hkey ▸ hlt).trans (hltr a ha)
      rw [ihl ht.left hsl, hr, if_neg (by simpa using hkey ▸ hlt), append_nil]
    next hge =>
      have hle : n.area.start.asU64 ≤ key := hkey ▸ le_of_not_gt hge
      rw [ihr ht.right hsr, if_pos (by simpa using hle), getLast?_append,
        getLast?_cons]
      cases ((areas r).filter (·.start.asU64 ≤ key)).getLast? <;> rfl

theorem findPrev_eq : findPrev t key = ((areas t).filter (·.start.asU64 ≤ key)).getLast? := by
  rw [findPrev, findPrevFrom_eq ht hs, Option.or_none]

/-- `find_next` is the first area that starts at or above the key. -/
theorem findNextFrom_eq (res : Option MemoryArea) :
    findNextFrom key t res = ((areas t).filter (key ≤ ·.start.asU64)).head?.or res := by
  induction t generalizing res with
  | nil => rfl
  | node n l r ihl ihr =>
    obtain ⟨hsl, hsr, hltl, hltr⟩ := hs.node
    have hkey := ht.keyed.1
    rw [findNextFrom, areas_node, filter_append, filter_cons]
    split
    next hle =>
      rw [ihl ht.left hsl, if_pos (by simpa using hkey ▸ hle), head?_append]
      cases ((areas l).filter (key ≤ ·.start.asU64)).head? <;> rfl
    next hgt =>
      have hlt : n.area.start.asU64 < key := hkey ▸ lt_of_not_ge hgt
      have hl : (areas l).filter (key ≤ ·.start.asU64) = [] := by
        rw [filter_eq_nil_iff]
        intro a ha
        simpa using (hltl a ha).trans hlt
      rw [ihr ht.right hsr, hl, if_neg (by simpa using hlt), nil_append]

theorem findNext_eq : findNext t key = ((areas t).filter (key ≤ ·.start.asU64)).head? := by
  rw [findNext, findNextFrom_eq ht hs, Option.or_none]

end

/-! ## Removal and insertion -/

theorem removeNode_fst (t : Link) (key : UInt64) : (removeNode t key).1 =
      if key = 0xffffffffffffffff then (split t key).1
      else merge (split t key).1 (split (split t key).2 (key + 1)).2 := by
  by_cases h : key = 0xffffffffffffffff
  · simp [removeNode, h]
  · simp [removeNode, h]

theorem insertNode_eq (t : Link) (n : IntervalNode) :
    insertNode t n = merge (merge (split t n.key).1 (.node n .nil .nil)) (split t n.key).2 := by
  cases t with
  | nil => simp [insertNode, split, merge]
  | node m l r => rfl

/-- The successor of a word that is not the largest one. -/
theorem succ_le_iff {key w : UInt64} (hne : key ≠ 0xffffffffffffffff) : key + 1 ≤ w ↔ key < w := by
  have hk : key.toNat ≠ 0xffffffffffffffff := fun h => hne (UInt64.toNat_inj.mp h)
  have hlt := key.toNat_lt
  have hone : (key + 1).toNat = key.toNat + 1 := by
    rw [UInt64.toNat_add]
    exact Nat.mod_eq_of_lt (by simp only [UInt64.reduceToNat]; omega)
  rw [le_iff_toNat_le, lt_iff_toNat_lt, hone]
  exact Nat.succ_le_iff

/-- Removal drops the area that starts at the key and nothing else. -/
theorem areas_removeNode (ht : Shaped t) (hs : StartsSorted (areas t)) (key : UInt64) :
    areas (removeNode t key).1 = (areas t).filter (·.start.asU64 ≠ key) := by
  obtain ⟨hlt, hge⟩ := split_starts ht hs key
  have hcut := areas_split t key
  have hkeepl : (areas (split t key).1).filter (·.start.asU64 ≠ key) = areas (split t key).1 := by
    rw [filter_eq_self]
    intro a ha
    simpa using (hlt a ha).ne
  rw [removeNode_fst]
  split
  next hmax =>
    -- the right part is dropped as a whole: nothing starts above the largest word
    have hdrop : (areas (split t key).2).filter (·.start.asU64 ≠ key) = [] := by
      rw [filter_eq_nil_iff]
      intro a ha
      have hle : a.start.asU64 ≤ key := by
        rw [hmax, le_iff_toNat_le]
        exact Nat.le_of_lt_succ a.start.asU64.toNat_lt
      simpa using le_antisymm hle (hge a ha)
    rw [← hcut, filter_append, hkeepl, hdrop, append_nil]
  next hne =>
    have hsr : StartsSorted (areas (split t key).2) := (hcut ▸ hs).right
    obtain ⟨hlt2, hge2⟩ := split_starts (ht.split key).2 hsr (key + 1)
    have hcut2 := areas_split (split t key).2 (key + 1)
    have hdrop : (areas (split (split t key).2 (key + 1)).1).filter (·.start.asU64 ≠ key) = [] := by
      rw [filter_eq_nil_iff]
      intro a ha
      have hle : a.start.asU64 ≤ key := by
        have := hlt2 a ha
        rw [← not_le, succ_le_iff hne] at this
        exact le_of_not_gt this
      have hmem : a ∈ areas (split t key).2 := by rw [← hcut2]; simp [ha]
      simpa using le_antisymm hle (hge a hmem)
    have hkeepr : (areas (split (split t key).2 (key + 1)).2).filter (·.start.asU64 ≠ key) =
        areas (split (split t key).2 (key + 1)).2 := by
      rw [filter_eq_self]
      intro a ha
      simpa using ((succ_le_iff hne).mp (hge2 a ha)).ne'
    rw [areas_merge, ← hcut, filter_append, hkeepl, ← hcut2, filter_append, hdrop,
      hkeepr, nil_append]

theorem Shaped.removeNode (ht : Shaped t) (key : UInt64) : Shaped (removeNode t key).1 := by
  rw [removeNode_fst]
  split
  · exact (ht.split key).1
  · exact (ht.split key).1.merge ((ht.split key).2.split _).2

/-- Insertion puts the area between the smaller and the larger starts. -/
theorem areas_insertNode (ht : Shaped t) (hs : StartsSorted (areas t)) (a : MemoryArea) :
    areas (insertNode t (.new a)) =
      (areas t).filter (·.start.asU64 < a.start.asU64) ++
        a :: (areas t).filter (a.start.asU64 ≤ ·.start.asU64) := by
  rw [insertNode_eq, areas_merge, areas_merge, areas_split_fst ht hs, areas_split_snd ht hs]
  rw [areas_node, areas_nil, nil_append, append_assoc, singleton_append]
  rfl

theorem Shaped.insertNode (ht : Shaped t) (a : MemoryArea) : Shaped (insertNode t (.new a)) := by
  rw [insertNode_eq]
  exact ((ht.split _).1.merge (Shaped.single a)).merge (ht.split _).2

/-! ## Areas apart -/

/-- `a` ends at the start of `b` and has the same flags, so the two should be one
area. -/
def Joinable (a b : MemoryArea) : Prop := a.end.asU64 = b.start.asU64 ∧ a.flags = b.flags

/-- The areas are non-empty, follow one another without overlap, and no two of them
are joinable. -/
structure AreasApart (as : List MemoryArea) : Prop where
  nonempty : ∀ a ∈ as, a.start.asU64 < a.end.asU64
  apart : as.Pairwise fun a b => a.end.asU64 ≤ b.start.asU64 ∧ ¬ Joinable a b

theorem AreasApart.nil : AreasApart [] := ⟨by simp, .nil⟩

theorem AreasApart.filter (h : AreasApart as) (p : MemoryArea → Bool) : AreasApart (as.filter p) :=
  ⟨fun a ha => h.nonempty a (mem_filter.mp ha).1, h.apart.filter p⟩

theorem AreasApart.sorted (h : AreasApart as) : StartsSorted as := by
  refine h.apart.imp_of_mem ?_
  intro a b ha _ hab
  exact (h.nonempty a ha).trans_le hab.1

/-- `b` does not continue `a`, nor `a` continue `b`, with the same flags. -/
def Unjoined (a b : MemoryArea) : Prop :=
  (a.end.asU64 = b.start.asU64 → a.flags ≠ b.flags) ∧
    (b.end.asU64 = a.start.asU64 → b.flags ≠ a.flags)

instance : Std.Symm Unjoined := ⟨fun _ _ h => ⟨h.2, h.1⟩⟩

/-- Any two areas of the list, in either order, are unjoined. -/
theorem AreasApart.unjoined (h : AreasApart as) : ∀ a ∈ as, ∀ b ∈ as, Unjoined a b := by
  refine List.Pairwise.forall_of_forall (R := Unjoined) (fun a ha => ?_) ?_
  · have hne := (h.nonempty a ha).ne'
    exact ⟨fun heq => absurd heq hne, fun heq => absurd heq hne⟩
  · refine h.apart.imp_of_mem fun {a b} ha hb hab => ⟨fun heq hfl => hab.2 ⟨heq, hfl⟩, ?_⟩
    intro heq
    have := (h.nonempty a ha).trans_le (hab.1.trans ((h.nonempty b hb).le.trans heq.le))
    exact absurd this (lt_irrefl _)

/-- An area that can be added to the list: disjoint from every area of it and
joinable with none. -/
def Fits (a : MemoryArea) (as : List MemoryArea) : Prop :=
  ∀ b ∈ as, (b.end.asU64 ≤ a.start.asU64 ∧ ¬ Joinable b a) ∨
    (a.end.asU64 ≤ b.start.asU64 ∧ ¬ Joinable a b)

/-- Putting a fitting area between the smaller and the larger starts. -/
theorem AreasApart.insert (h : AreasApart as) (ha : a.start.asU64 < a.end.asU64) (hf : Fits a as)
    : AreasApart (as.filter (·.start.asU64 < a.start.asU64) ++
      a :: as.filter (a.start.asU64 ≤ ·.start.asU64)) := by
  have hleft : ∀ b ∈ as.filter (·.start.asU64 < a.start.asU64),
      b.end.asU64 ≤ a.start.asU64 ∧ ¬ Joinable b a := by
    intro b hb
    obtain ⟨hb, hlt⟩ := mem_filter.mp hb
    rcases hf b hb with hba | hab
    · exact hba
    · exact absurd (ha.trans_le hab.1) (not_lt.mpr (of_decide_eq_true hlt).le)
  have hright : ∀ b ∈ as.filter (a.start.asU64 ≤ ·.start.asU64),
      a.end.asU64 ≤ b.start.asU64 ∧ ¬ Joinable a b := by
    intro b hb
    obtain ⟨hb, hle⟩ := mem_filter.mp hb
    rcases hf b hb with hba | hab
    · exact absurd ((h.nonempty b hb).trans_le hba.1) (not_lt.mpr (of_decide_eq_true hle))
    · exact hab
  constructor
  · intro b hb
    rcases mem_append.mp hb with hb | hb
    · exact h.nonempty b (mem_filter.mp hb).1
    · rcases mem_cons.mp hb with rfl | hb
      · exact ha
      · exact h.nonempty b (mem_filter.mp hb).1
  · rw [pairwise_append, pairwise_cons]
    refine ⟨h.apart.filter _, ⟨hright, h.apart.filter _⟩, ?_⟩
    intro b hb c hc
    rcases mem_cons.mp hc with rfl | hc
    · exact hleft b hb
    · -- two old areas around the new one are more than adjacent
      have hba := hleft b hb
      have hac := hright c hc
      have hlt : b.end.asU64 < c.start.asU64 := hba.1.trans_lt (ha.trans_le hac.1)
      exact ⟨hlt.le, fun hj => hlt.ne hj.1⟩

/-! ## The insertion loop -/

def MemoryArea.Intersects (a b : MemoryArea) : Prop :=
  ∃ addr, a.contains addr = true ∧ b.contains addr = true

theorem MemoryArea.contains_iff :
    a.contains addr = true ↔ a.start.asU64 ≤ addr.asU64 ∧ addr.asU64 < a.end.asU64 := by
  simp [MemoryArea.contains]

theorem MemoryArea.contains_start (h : a.start.asU64 < a.end.asU64) : a.contains a.start = true :=
  contains_iff.mpr ⟨le_refl _, h⟩

/-- An area that ends where another one begins has no address in common with it. -/
theorem MemoryArea.not_intersects_of_le (h : a.end.asU64 ≤ b.start.asU64) : ¬ a.Intersects b := by
  rintro ⟨addr, ha, hb⟩
  exact absurd ((contains_iff.mp ha).2.trans_le h) (not_lt.mpr (contains_iff.mp hb).1)

theorem MemoryArea.Intersects.symm {a b : MemoryArea} (h : a.Intersects b) : b.Intersects a := by
  obtain ⟨addr, ha, hb⟩ := h
  exact ⟨addr, hb, ha⟩

namespace VmaTree

/-- The invariant of the loop: a good tree and a non-empty area. -/
structure LoopInv (root : Link) (area : MemoryArea) : Prop where
  shaped : Shaped root
  apart : AreasApart (areas root)
  nonempty : area.start.asU64 < area.end.asU64

/-- What is known once the previous neighbour was not merged. -/
def PrevClear (root : Link) (area : MemoryArea) : Prop :=
  ∀ b ∈ areas root, b.start.asU64 ≤ area.start.asU64 →
    b.end.asU64 ≤ area.start.asU64 ∧ ¬ Joinable b area

/-- What is known once the next neighbour was not merged. -/
def NextClear (root : Link) (area : MemoryArea) : Prop :=
  ∀ b ∈ areas root, area.start.asU64 ≤ b.start.asU64 →
    area.end.asU64 ≤ b.start.asU64 ∧ ¬ Joinable area b

/-- Removing an area of the tree makes the tree smaller. -/
theorem numNodes_removeNode_lt {root : Link} (hsh : Shaped root) (hap : AreasApart (areas root))
    (ha : a ∈ areas root) : (removeNode root a.start.asU64).1.numNodes < root.numNodes := by
  rw [← length_areas, ← length_areas, areas_removeNode hsh hap.sorted]
  apply length_filter_lt_length_iff_exists.mpr
  exact ⟨a, ha, by simp⟩

variable {area area' : MemoryArea} {root root' : Link} {t : VmaTree}

theorem LoopInv.remove {root : Link} (h : LoopInv root area) (key : UInt64)
    (hne : area'.start.asU64 < area'.end.asU64) : LoopInv (removeNode root key).1 area' := by
  refine ⟨h.shaped.removeNode key, ?_, hne⟩
  rw [areas_removeNode h.shaped h.apart.sorted]
  exact h.apart.filter _

/-- What half a round does, by its result: the neighbour overlaps, or it stays and the area is clear
on its side, or it is taken in. -/
inductive Half (root : Link) (area : MemoryArea) (Clear : Prop) : Option (Link × MemoryArea × Bool) → Prop
  | rejected {b : MemoryArea} (hb : b ∈ areas root) (hi : b.Intersects area) : Half root area Clear none
  | clear (h : Clear) : Half root area Clear (some (root, area, false))
  | taken {b area' : MemoryArea} (hb : b ∈ areas root) (hflags : b.flags = area.flags)
      (hflags' : area'.flags = area.flags) (hapart : ¬ b.Intersects area)
      (hcovers : ∀ addr, area'.contains addr = true ↔ area.contains addr = true ∨ b.contains addr = true) :
      Half root area Clear (some ((removeNode root b.start.asU64).1, area', true))

/-- The loop keeps its invariant, and either the tree got smaller or nothing changed and the
neighbour is clear. -/
theorem Half.spec (hr : Half root area Clear (some (root', area', merged)))
    (h : LoopInv root area) :
    LoopInv root' area' ∧ (merged = true → root'.numNodes < root.numNodes) ∧
      (merged = false → root' = root ∧ area' = area ∧ Clear) := by
  cases hr with
  | clear hclear => exact ⟨h, nofun, fun _ => ⟨rfl, rfl, hclear⟩⟩
  | taken hb hflags hflags' hapart hcovers =>
    refine ⟨h.remove _ ?_, fun _ => numNodes_removeNode_lt h.shaped h.apart hb, nofun⟩
    obtain ⟨hge, hlt⟩ := contains_iff.mp
      ((hcovers area.start).mpr (.inl (contains_start h.nonempty)))
    exact hge.trans_lt hlt

theorem absorbPrev_half (h : LoopInv root area) :
    Half root area (PrevClear root area) (absorbPrev root area) := by
  have hne := h.nonempty
  unfold absorbPrev
  rw [findPrev_eq h.shaped h.apart.sorted]
  split
  next hnone =>
    refine .clear fun b hb hle => ?_
    rw [getLast?_eq_none_iff, filter_eq_nil_iff] at hnone
    exact absurd hle (by simpa using hnone b hb)
  next prev hprev =>
    obtain ⟨init, hinit⟩ := getLast?_eq_some_iff.mp hprev
    obtain ⟨hmem, hple⟩ := mem_filter.mp (mem_of_mem_getLast? hprev)
    have hpne := h.apart.nonempty prev hmem
    split
    next hgt =>
      exact .rejected hmem ⟨area.start, contains_iff.mpr ⟨of_decide_eq_true hple, hgt⟩,
        contains_start hne⟩
    next hle =>
      split
      next hj =>
        refine .taken hmem hj.2 rfl (not_intersects_of_le hj.1.le) fun addr => ?_
        simp only [contains_iff, le_iff_toNat_le, lt_iff_toNat_lt,
          ← UInt64.toNat_inj] at hj hpne hne ⊢
        omega
      next hj =>
        refine .clear fun b hb hble => ?_
        have hbf : b ∈ (areas root).filter (·.start.asU64 ≤ area.start.asU64) :=
          mem_filter.mpr ⟨hb, by simpa using hble⟩
        have hap := (h.apart.filter (·.start.asU64 ≤ area.start.asU64)).apart
        rw [hinit] at hbf hap
        rcases mem_append.mp hbf with hbf | hbf
        · -- areas before the neighbour end before it starts
          have hbp := (pairwise_append.mp hap).2.2 b hbf prev (by simp)
          have hlt := hbp.1.trans_lt (hpne.trans_le (le_of_not_gt hle))
          exact ⟨hlt.le, fun hj' => hlt.ne hj'.1⟩
        · obtain rfl := mem_singleton.mp hbf
          exact ⟨le_of_not_gt hle, hj⟩

theorem absorbNext_half (h : LoopInv root area) :
    Half root area (NextClear root area) (absorbNext root area) := by
  have hne := h.nonempty
  unfold absorbNext
  rw [findNext_eq h.shaped h.apart.sorted]
  split
  next hnone =>
    refine .clear fun b hb hle => ?_
    rw [head?_eq_none_iff, filter_eq_nil_iff] at hnone
    exact absurd hle (by simpa using hnone b hb)
  next nxt hnext =>
    obtain ⟨tail, htail⟩ := head?_eq_some_iff.mp hnext
    obtain ⟨hmem, hnle⟩ := mem_filter.mp (mem_of_mem_head? hnext)
    have hnne := h.apart.nonempty nxt hmem
    split
    next hlt =>
      exact .rejected hmem ⟨nxt.start, contains_start hnne,
        contains_iff.mpr ⟨of_decide_eq_true hnle, hlt⟩⟩
    next hle =>
      split
      next hj =>
        refine .taken hmem hj.2 rfl (fun hi => not_intersects_of_le hj.1.ge hi.symm)
          fun addr => ?_
        simp only [contains_iff, le_iff_toNat_le, lt_iff_toNat_lt,
          ← UInt64.toNat_inj] at hj hnne hne ⊢
        omega
      next hj =>
        refine .clear fun b hb hble => ?_
        have hbf : b ∈ (areas root).filter (area.start.asU64 ≤ ·.start.asU64) :=
          mem_filter.mpr ⟨hb, by simpa using hble⟩
        have hap := (h.apart.filter (area.start.asU64 ≤ ·.start.asU64)).apart
        rw [htail] at hbf hap
        rcases mem_cons.mp hbf with rfl | hbf
        · exact ⟨le_of_not_gt hle, fun hj' => hj ⟨hj'.1.symm, hj'.2.symm⟩⟩
        · -- areas after the neighbour start after its end
          have hnb := (pairwise_cons.mp hap).1 b hbf
          have hlt := ((le_of_not_gt hle).trans_lt hnne).trans_le hnb.1
          exact ⟨hlt.le, fun hj' => hlt.ne hj'.1⟩

/-- The loop ends within its fuel.  On success the area fits the remaining tree. -/
theorem insertLoop_spec (fuel : Nat) (h : LoopInv root area) (hfuel : root.numNodes < fuel) :
    ∃ res root', insertLoop fuel root area = some (res, root') ∧ Shaped root' ∧
      AreasApart (areas root') ∧
      ∀ area', res = .ok area' → area'.start.asU64 < area'.end.asU64 ∧ Fits area' (areas root') := by
  induction fuel generalizing root area with
  | zero => omega
  | succ fuel ih =>
    rw [insertLoop]
    cases hp : absorbPrev root area with
    | none => exact ⟨_, _, rfl, h.shaped, h.apart, by simp⟩
    | some r1 =>
      obtain ⟨root1, area1, merged1⟩ := r1
      obtain ⟨h1, hlt1, hkeep1⟩ := (hp ▸ absorbPrev_half h).spec h
      cases hn : absorbNext root1 area1 with
      | none =>
        simp only [hn]
        exact ⟨_, _, rfl, h1.shaped, h1.apart, by simp⟩
      | some r2 =>
        obtain ⟨root2, area2, merged2⟩ := r2
        obtain ⟨h2, hlt2, hkeep2⟩ := (hn ▸ absorbNext_half h1).spec h1
        simp only [hn]
        cases merged1 with
        | true =>
          have hle : root2.numNodes ≤ root1.numNodes := by
            cases merged2 with
            | true => exact (hlt2 rfl).le
            | false => rw [(hkeep2 rfl).1]
          have := hlt1 rfl
          exact ih h2 (by omega)
        | false =>
          obtain ⟨rfl, rfl, hprev⟩ := hkeep1 rfl
          cases merged2 with
          | true =>
            have := hlt2 rfl
            exact ih h2 (by omega)
          | false =>
            obtain ⟨rfl, rfl, hnext⟩ := hkeep2 rfl
            refine ⟨_, _, rfl, h2.shaped, h2.apart, ?_⟩
            rintro area' ⟨⟩
            refine ⟨h2.nonempty, fun b hb => ?_⟩
            rcases le_total b.start.asU64 area2.start.asU64 with hle | hle
            · exact Or.inl (hprev b hb hle)
            · exact Or.inr (hnext b hb hle)

/-! ## The invariant of the tree -/

/-- The working form of the invariant. -/
structure Good (t : VmaTree) : Prop where
  shaped : Shaped t.root
  apart : AreasApart (areas t.root)

theorem areasInOrder_eq (t : VmaTree) : t.areasInOrder = areas t.root := by
  simp [areasInOrder, forEachInOrder_eq]

theorem Good.new : Good new := ⟨trivial, AreasApart.nil⟩

/-- On a good tree the insertion loop ends within its fuel. -/
theorem Good.insertLoop_isSome (h : t.Good) (hne : area.start.asU64 < area.end.asU64) :
    (insertLoop (t.root.numNodes + 1) t.root area).isSome := by
  obtain ⟨_, _, heq, -⟩ :=
    insertLoop_spec (t.root.numNodes + 1) ⟨h.shaped, h.apart, hne⟩ (Nat.lt_succ_self _)
  rw [heq]
  rfl

/-- Every insertion, successful or rejected, keeps the invariant. -/
theorem Good.insertArea (h : t.Good) (area : MemoryArea) : (t.insertArea area).2.Good := by
  unfold VmaTree.insertArea
  split
  next => exact h
  next hne =>
    obtain ⟨res, root', heq, hsh, hap, hok⟩ :=
      insertLoop_spec (t.root.numNodes + 1) ⟨h.shaped, h.apart, lt_of_not_ge hne⟩
        (Nat.lt_succ_self _)
    rw [heq]
    cases res with
    | error e => exact ⟨hsh, hap⟩
    | ok area' =>
      obtain ⟨hne', hfits⟩ := hok area' rfl
      refine ⟨hsh.insertNode area', ?_⟩
      rw [areas_insertNode hsh hap.sorted]
      exact hap.insert hne' hfits

/-- The tree after a sequence of insertions into the empty tree. -/
def run (calls : List MemoryArea) : VmaTree := calls.foldl (fun t a => (t.insertArea a).2) new

theorem run_good (calls : List MemoryArea) : (run calls).Good :=
  List.foldlRecOn calls _ Good.new fun _ ht a _ => ht.insertArea a

/-- The representation invariant, node by node. -/
structure RepInv (t : VmaTree) : Prop where
  key_eq : ∀ n ∈ t.root.inorder, n.key = n.area.start.asU64
  prio_eq : ∀ n ∈ t.root.inorder, n.prio = splitmix64 n.key
  search : t.root.SearchTree fun n => n.area.start.asU64
  heap : t.root.HeapOrdered IntervalNode.prio
  maxEnd : t.root.CachesMax IntervalNode.maxEnd fun n => n.area.end.asU64
  nonempty : ∀ a ∈ areas t.root, a.start.asU64 < a.end.asU64
  disjoint : (areas t.root).Pairwise fun a b =>
    a.end.asU64 ≤ b.start.asU64 ∨ b.end.asU64 ≤ a.start.asU64
  unjoined : ∀ a ∈ areas t.root, ∀ b ∈ areas t.root, a.end.asU64 = b.start.asU64 →
    a.flags ≠ b.flags

/-- Every node of a shaped tree is keyed. -/
theorem keyed_of_shaped {t : Link} (h : Shaped t) : ∀ n ∈ t.inorder, n.Keyed :=
  (everywhere_value_iff t).mp (h.imp fun _ _ _ hn => hn.1)

theorem heapOrdered_of_shaped {t : Link} (h : Shaped t) : t.HeapOrdered IntervalNode.prio := by
  induction t with
  | nil => exact heapOrdered_nil
  | node n l r ihl ihr =>
    refine heapOrdered_node.mpr ⟨fun m hm => ?_, ihl h.left, ihr h.right⟩
    have hmem : m ∈ (BinaryTree.node n l r).inorder := by
      simp only [inorder_node, mem_append, mem_cons] at hm ⊢
      tauto
    have hk := keyed_of_shaped h m hmem
    have hle : m.area.prio ≤ n.prio := h.prio_le (mem_map_of_mem hmem)
    rwa [MemoryArea.prio, ← hk.1, ← hk.2] at hle

theorem cachesMax_of_shaped {t : Link} (h : Shaped t) :
    t.CachesMax IntervalNode.maxEnd fun n => n.area.end.asU64 := by
  refine h.imp fun n l r hn => ?_
  have hgr := hn.2.2
  simp only [areas, mem_map, exists_exists_and_eq_and] at hgr
  exact hgr

theorem Good.repInv (h : t.Good) : t.RepInv where
  key_eq n hn := (keyed_of_shaped h.shaped n hn).1
  prio_eq n hn := (keyed_of_shaped h.shaped n hn).2
  search := by
    rw [searchTree_iff_pairwise, pairwise_map]
    have hs := h.apart.sorted
    rwa [StartsSorted, areas, pairwise_map] at hs
  heap := heapOrdered_of_shaped h.shaped
  maxEnd := cachesMax_of_shaped h.shaped
  nonempty := h.apart.nonempty
  disjoint := h.apart.apart.imp fun hab => Or.inl hab.1
  unjoined a ha b hb := (h.apart.unjoined a ha b hb).1

/-- After any sequence of insertions, successful or rejected, into an empty tree the
representation invariant holds, and the loop of a further insertion ends. -/
theorem run_repInv (calls : List MemoryArea) :
    (run calls).RepInv ∧
      ∀ area : MemoryArea, area.start.asU64 < area.end.asU64 →
        (insertLoop ((run calls).root.numNodes + 1) (run calls).root area).isSome :=
  ⟨(run_good calls).repInv, fun _ hne => (run_good calls).insertLoop_isSome hne⟩

end VmaTree

end BoruixKernel
