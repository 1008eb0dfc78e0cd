import Mathlib

/-!
# Tries of tables in memory

A memory gives a table at every address, a table gives an entry at every index, and
an entry may point to a further table or hold a leaf.  `tableAt` follows a path of
indices from a root.  How an entry is read may depend on its depth, so a `Format`
takes the depth too.

A trie is `Separate` when no table is reached by two paths.  Then storing to one
entry has a local effect, and the three stores a trie needs are specified here on
paths alone: writing a leaf (`tableAt_setLeaf`, `leafAt_setLeaf`), hanging a blank
table under an empty entry (`tableAt_grow`, `leafAt_grow`), and cutting off a table
without children or leaves (`tableAt_prune`, `leafAt_prune`).
-/

namespace PointerTrie

open Function Option

/-- How an entry at a given depth is read. -/
structure Format (α ε : Type*) where
  /-- The table the entry points to. -/
  child : Nat → ε → Option α
  /-- Whether the entry is a leaf. -/
  leaf : Nat → ε → Bool

variable {α ι ε : Type*} (F : Format α ε) {T T' : α → ι → ε} {root : α} {p : List ι} {i : ι}

/-- The table reached from `t`, itself at depth `d`, along a path. -/
def descend (T : α → ι → ε) : Nat → α → List ι → Option α
  | _, t, [] => some t
  | d, t, i :: is => (F.child d (T t i)).bind fun c => descend T (d + 1) c is

/-- The table reached from the root along a path. -/
def tableAt (T : α → ι → ε) (root : α) (p : List ι) : Option α := descend F T 0 root p

/-- The leaf at index `i` of the table at path `p`. -/
def leafAt (T : α → ι → ε) (root : α) (p : List ι) (i : ι) : Option ε :=
  ((tableAt F T root p).map (T · i)).filter (F.leaf p.length)

/-- No table is reached by two paths. -/
def Separate (T : α → ι → ε) (root : α) : Prop :=
  ∀ p q t, tableAt F T root p = some t → tableAt F T root q = some t → p = q

/-! ## Paths -/

theorem descend_append (T : α → ι → ε) (d : Nat) (t : α) (p q : List ι) : descend F T d t (p ++ q) =
      (descend F T d t p).bind fun u => descend F T (d + p.length) u q := by
  induction p generalizing d t with
  | nil => simp [descend]
  | cons i p ih =>
    simp only [List.cons_append, descend, List.length_cons]
    cases F.child d (T t i) with
    | none => rfl
    | some c =>
      simp only [bind_some]
      rw [ih, Nat.add_right_comm, Nat.add_assoc]

@[simp] theorem tableAt_nil (T : α → ι → ε) (root : α) : tableAt F T root [] = some root := rfl

theorem tableAt_append (T : α → ι → ε) (root : α) (p q : List ι) : tableAt F T root (p ++ q) =
      (tableAt F T root p).bind fun t => descend F T p.length t q := by
  unfold tableAt
  rw [descend_append, Nat.zero_add]

theorem tableAt_snoc (T : α → ι → ε) (root : α) (p : List ι) (i : ι) : tableAt F T root (p ++ [i]) =
      (tableAt F T root p).bind fun t => F.child p.length (T t i) := by
  rw [tableAt_append]
  cases tableAt F T root p with
  | none => rfl
  | some t =>
    simp only [bind_some, descend]
    cases F.child p.length (T t i) <;> rfl

theorem tableAt_eq_none_of_append (h : tableAt F T root p = none) (r : List ι) :
    tableAt F T root (p ++ r) = none := by
  rw [tableAt_append, h, bind_none]

/-- A table without children ends every path through it. -/
theorem tableAt_append_of_barren (hp : tableAt F T root p = some c)
    (hc : ∀ j, F.child p.length (T c j) = none) (hr : r ≠ []) :
    tableAt F T root (p ++ r) = none := by
  cases r with
  | nil => exact absurd rfl hr
  | cons j r => rw [tableAt_append, hp, bind_some, descend, hc, bind_none]

/-- Changing the entry at `p`, `i` changes no table that is not under it. -/
theorem tableAt_congr (h : ∀ q u, tableAt F T root q = some u → ∀ j, ¬ (q = p ∧ j = i) → T' u j = T u j)
    (q : List ι) (hq : ¬ p ++ [i] <+: q) : tableAt F T' root q = tableAt F T root q := by
  induction q using List.reverseRecOn with
  | nil => rfl
  | append_singleton q j ih =>
    have hq' : ¬ p ++ [i] <+: q := fun hpre => hq (hpre.trans (List.prefix_append q [j]))
    rw [tableAt_snoc, tableAt_snoc, ih hq']
    cases hu : tableAt F T root q with
    | none => rfl
    | some u =>
      have hne : ¬ (q = p ∧ j = i) := by
        rintro ⟨rfl, rfl⟩
        exact hq (List.prefix_refl _)
      simp [h q u hu j hne]

/-- Memories that agree on the tables of a trie have the same tables. -/
theorem tableAt_same (h : ∀ q u, tableAt F T root q = some u → T' u = T u) (q : List ι) :
    tableAt F T' root q = tableAt F T root q := by
  induction q using List.reverseRecOn with
  | nil => rfl
  | append_singleton q j ih =>
    rw [tableAt_snoc, tableAt_snoc, ih]
    cases hu : tableAt F T root q with
    | none => rfl
    | some u => rw [bind_some, bind_some, h q u hu]

theorem leafAt_same (h : ∀ q u, tableAt F T root q = some u → T' u = T u) (q : List ι) (j : ι) :
    leafAt F T' root q j = leafAt F T root q j := by
  unfold leafAt
  rw [tableAt_same F h]
  cases hu : tableAt F T root q with
  | none => rfl
  | some u => rw [map_some, map_some, h q u hu]

/-! ## Filling an unused table -/

section Update

variable {F} [DecidableEq α] {c : α}

section

variable (Z : ι → ε) (hfresh : ∀ q, tableAt F T root q ≠ some c) (q : List ι)

include Z hfresh q

theorem update_off (u : α) (hq : tableAt F T root q = some u) : update T c Z u = T u := by
  apply update_of_ne
  rintro rfl
  exact hfresh q hq

/-- Filling a table no path reaches changes no path. -/
theorem tableAt_update : tableAt F (update T c Z) root q = tableAt F T root q :=
  tableAt_same F (update_off Z hfresh) q

theorem leafAt_update (j : ι) : leafAt F (update T c Z) root q j = leafAt F T root q j :=
  leafAt_same F (update_off Z hfresh) q j

end

end Update

/-! ## Storing one entry -/

section Set

variable [DecidableEq α] [DecidableEq ι]

/-- The memory after a store to entry `i` of table `t`. -/
def set (T : α → ι → ε) (t : α) (i : ι) (e : ε) : α → ι → ε :=
  update T t (update (T t) i e)

theorem set_apply (T : α → ι → ε) (t : α) (i : ι) (e : ε) (u : α) (j : ι) :
    set T t i e u j = if u = t ∧ j = i then e else T u j := by
  unfold set
  by_cases hu : u = t
  · subst hu
    by_cases hj : j = i
    · subst hj
      simp
    · simp [hj]
  · simp [hu]

@[simp] theorem set_self (T : α → ι → ε) (t : α) (i : ι) (e : ε) : set T t i e t i = e := by
  simp [set_apply]

theorem set_ne (e : ε) (h : ¬ (u = t ∧ j = i)) : set T t i e u j = T u j := by
  rw [set_apply, if_neg h]

variable {F} {t c : α}

section

variable (hs : Separate F T root) (hp : tableAt F T root p = some t)

include hs hp

/-- In a separate trie a store reaches an entry along one path only. -/
theorem Separate.set_off_path (q : List ι) (u : α) (hq : tableAt F T root q = some u) (j : ι)
    (hne : ¬ (q = p ∧ j = i)) : set T t i e u j = T u j := by
  apply set_ne
  rintro ⟨rfl, rfl⟩
  exact hne ⟨hs q p u hq hp, rfl⟩

/-- A store changes no table that is not under its entry. -/
theorem Separate.tableAt_set_off (q : List ι) (hq : ¬ p ++ [i] <+: q) :
    tableAt F (set T t i e) root q = tableAt F T root q :=
  tableAt_congr F (hs.set_off_path hp) q hq

/-- What the stored entry points to stands under it. -/
theorem Separate.tableAt_set_under : tableAt F (set T t i e) root (p ++ [i]) = F.child p.length e := by
  have hp' : ¬ p ++ [i] <+: p := by
    intro h
    have hle := h.length_le
    rw [List.length_append, List.length_singleton] at hle
    omega
  rw [tableAt_snoc, hs.tableAt_set_off hp p hp', hp, bind_some, set_self]

/-- Writing an entry without a child cuts off everything under it. -/
theorem tableAt_cut (hnew : F.child p.length e = none) (q : List ι) :
    tableAt F (set T t i e) root q = if p ++ [i] <+: q then none else tableAt F T root q := by
  split
  next hq =>
    obtain ⟨r, rfl⟩ := hq
    exact tableAt_eq_none_of_append F (by rw [hs.tableAt_set_under hp, hnew]) _
  next hq => exact hs.tableAt_set_off hp q hq

/-- Writing an entry without a child over another leaves all tables where they are. -/
theorem tableAt_setLeaf (hold : F.child p.length (T t i) = none) (hnew : F.child p.length e = none)
    (q : List ι) : tableAt F (set T t i e) root q = tableAt F T root q := by
  rw [tableAt_cut hs hp hnew]
  split
  next hq =>
    obtain ⟨r, rfl⟩ := hq
    rw [tableAt_eq_none_of_append F]
    rw [tableAt_snoc, hp, bind_some, hold]
  next => rfl

/-- Writing an entry without a child changes the leaf at its own place only. -/
theorem leafAt_setLeaf (hold : F.child p.length (T t i) = none) (hnew : F.child p.length e = none)
    (q : List ι) (j : ι) :
    leafAt F (set T t i e) root q j =
      if q = p ∧ j = i then (some e).filter (F.leaf p.length) else leafAt F T root q j := by
  unfold leafAt
  rw [tableAt_setLeaf hs hp hold hnew]
  split
  next h =>
    obtain ⟨rfl, rfl⟩ := h
    rw [hp, map_some, set_self]
  next h =>
    cases hu : tableAt F T root q with
    | none => rfl
    | some u => rw [map_some, map_some, hs.set_off_path hp q u hu j h]

/-- Cutting off a table without children removes that table and no other. -/
theorem tableAt_prune (hold : F.child p.length (T t i) = some c) (hnew : F.child p.length e = none)
    (hc : ∀ j, F.child (p.length + 1) (T c j) = none) (q : List ι) :
    tableAt F (set T t i e) root q = if q = p ++ [i] then none else tableAt F T root q := by
  rw [tableAt_cut hs hp hnew]
  split
  next hq =>
    obtain ⟨r, rfl⟩ := hq
    split
    next => rfl
    next hr =>
      have hpi : tableAt F T root (p ++ [i]) = some c := by
        rw [tableAt_snoc, hp, bind_some, hold]
      rw [tableAt_append_of_barren F hpi (by simpa using hc) (by simpa using hr)]
  next hq =>
    rw [if_neg]
    rintro rfl
    exact hq (List.prefix_refl _)

/-- A store between entries that are no leaves changes no leaf of a table that stays. -/
theorem Separate.leaf_set (hlold : F.leaf p.length (T t i) = false) (hlnew : F.leaf p.length e = false)
    (q : List ι) (j : ι) :
    ((tableAt F T root q).map fun u => set T t i e u j).filter (F.leaf q.length) =
      leafAt F T root q j := by
  unfold leafAt
  cases hu : tableAt F T root q with
  | none => rfl
  | some u =>
    by_cases hqj : q = p ∧ j = i
    · obtain ⟨rfl, rfl⟩ := hqj
      rw [hp] at hu
      cases hu
      simp [filter_some, hlold, hlnew]
    · rw [map_some, map_some, hs.set_off_path hp q u hu j hqj]

/-- Cutting off a table without children and leaves loses no leaf. -/
theorem leafAt_prune (hold : F.child p.length (T t i) = some c) (hnew : F.child p.length e = none)
    (hc : ∀ j, F.child (p.length + 1) (T c j) = none) (hlold : F.leaf p.length (T t i) = false)
    (hlnew : F.leaf p.length e = false) (hlc : ∀ j, F.leaf (p.length + 1) (T c j) = false) (q : List ι)
    (j : ι) : leafAt F (set T t i e) root q j = leafAt F T root q j := by
  unfold leafAt
  rw [tableAt_prune hs hp hold hnew hc]
  split
  next h =>
    subst h
    rw [tableAt_snoc, hp, bind_some, hold, map_some, filter_some]
    simp [hlc]
  next => exact hs.leaf_set hp hlold hlnew q j

/-- Hanging a table without children under an empty entry adds that table and no
other. -/
theorem tableAt_grow (hold : F.child p.length (T t i) = none) (hnew : F.child p.length e = some c)
    (hfresh : ∀ q, tableAt F T root q ≠ some c) (hc : ∀ j, F.child (p.length + 1) (T c j) = none)
    (q : List ι) :
    tableAt F (set T t i e) root q = if q = p ++ [i] then some c else tableAt F T root q := by
  by_cases hq : p ++ [i] <+: q
  · obtain ⟨r, rfl⟩ := hq
    have hpi : tableAt F (set T t i e) root (p ++ [i]) = some c := by
      rw [hs.tableAt_set_under hp, hnew]
    have hct : c ≠ t := by
      rintro rfl
      exact hfresh p hp
    split
    next h => rw [h, hpi]
    next hr =>
      rw [tableAt_append_of_barren F hpi _ (by simpa using hr), tableAt_eq_none_of_append F]
      · rw [tableAt_snoc, hp, bind_some, hold]
      · intro j
        rw [set_ne e (fun h => hct h.1), List.length_append]
        exact hc j
  · rw [hs.tableAt_set_off hp q hq, if_neg]
    rintro rfl
    exact hq (List.prefix_refl _)

/-- Hanging a blank table under an empty entry adds no leaf. -/
theorem leafAt_grow (hold : F.child p.length (T t i) = none) (hnew : F.child p.length e = some c)
    (hfresh : ∀ q, tableAt F T root q ≠ some c) (hc : ∀ j, F.child (p.length + 1) (T c j) = none)
    (hlold : F.leaf p.length (T t i) = false) (hlnew : F.leaf p.length e = false)
    (hlc : ∀ j, F.leaf (p.length + 1) (T c j) = false) (q : List ι) (j : ι) :
    leafAt F (set T t i e) root q j = leafAt F T root q j := by
  unfold leafAt
  rw [tableAt_grow hs hp hold hnew hfresh hc]
  have hct : c ≠ t := by
    rintro rfl
    exact hfresh p hp
  split
  next h =>
    subst h
    rw [tableAt_snoc, hp, bind_some, hold, map_some, filter_some,
      set_ne e (fun h => hct h.1)]
    simp [hlc]
  next => exact hs.leaf_set hp hlold hlnew q j

end

end Set

/-! ## Separation -/

section Separation

variable {F} {c : α}

theorem Separate.of_tableAt_imp (hs : Separate F T root)
    (h : ∀ q u, tableAt F T' root q = some u → tableAt F T root q = some u) :
    Separate F T' root :=
  fun p q t hp hq => hs p q t (h p t hp) (h q t hq)

/-- Hanging a fresh table keeps the trie separate. -/
theorem Separate.of_tableAt_add [DecidableEq ι] (hs : Separate F T root)
    (hfresh : ∀ q, tableAt F T root q ≠ some c)
    (h : ∀ q, tableAt F T' root q = if q = r then some c else tableAt F T root q) :
    Separate F T' root := by
  intro p q t hp hq
  rw [h] at hp hq
  split at hp <;> split at hq
  next hp' hq' => rw [hp', hq']
  next =>
    cases hp
    exact absurd hq (hfresh q)
  next =>
    cases hq
    exact absurd hp (hfresh p)
  next => exact hs p q t hp hq

end Separation

end PointerTrie
