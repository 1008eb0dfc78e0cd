import Mathlib

/-!
# Linked lists in a heap

Cells of a type `α` are linked by `next`, and by `prev` where the list is doubly
linked.  `Chain next h l` says that following `next` from the head `h` visits the
cells `l` and ends, and `DChain` adds that `prev` leads back.  A chain that ends has
no cell twice (`Chain.nodup`) and is determined by its head (`Chain.unique`).

The rules for programs come as frame and update lemmas: a chain only depends on its
own cells (`Chain.congr`, `DChain.congr`), a cell can be pushed at the head
(`DChain.push`) and unlinked anywhere (`DChain.unlink`).
-/

namespace LinkedList

open List

variable {α : Type*}

/-- Following `next` from `h` visits the cells `l`, then ends. -/
def Chain (next : α → Option α) : Option α → List α → Prop
  | h, [] => h = none
  | h, a :: l => h = some a ∧ Chain next (next a) l

/-- A chain of cells whose `prev` leads back, the first one to `p`. -/
def DChain (next prev : α → Option α) : Option α → Option α → List α → Prop
  | _, h, [] => h = none
  | p, h, a :: l => h = some a ∧ prev a = p ∧ DChain next prev (some a) (next a) l

section Chain

variable {next next' : α → Option α} {h : Option α} {l l' : List α}

section

variable (hc : Chain next h l)

include hc

/-- A chain depends on its own cells only. -/
theorem Chain.congr (heq : ∀ a ∈ l, next' a = next a) : Chain next' h l := by
  induction l generalizing h with
  | nil => exact hc
  | cons a l ih =>
    obtain ⟨hh, hl⟩ := hc
    refine ⟨hh, ?_⟩
    rw [heq a mem_cons_self]
    exact ih hl fun b hb => heq b (mem_cons_of_mem _ hb)

/-- The head determines the chain. -/
theorem Chain.unique (hc' : Chain next h l') : l = l' := by
  induction l generalizing h l' with
  | nil =>
    cases l' with
    | nil => rfl
    | cons b l' =>
      obtain ⟨hb, -⟩ := hc'
      rw [show h = none from hc] at hb
      cases hb
  | cons a l ih =>
    obtain ⟨rfl, hl⟩ := hc
    cases l' with
    | nil => cases hc'
    | cons b l' =>
      obtain ⟨⟨⟩, hl'⟩ := hc'
      rw [ih hl hl']

/-- From any of its cells on, a chain goes on to a shorter chain. -/
theorem Chain.suffix (ha : a ∈ l) : ∃ l2, Chain next (next a) l2 ∧ l2.length < l.length := by
  induction l generalizing h with
  | nil => cases ha
  | cons b l ih =>
    obtain ⟨-, hl⟩ := hc
    rcases mem_cons.mp ha with rfl | ha
    · exact ⟨l, hl, Nat.lt_succ_self _⟩
    · obtain ⟨l2, h2, hlt⟩ := ih hl ha
      exact ⟨l2, h2, Nat.lt_succ_of_lt hlt⟩

/-- A chain that ends has no cell twice. -/
theorem Chain.nodup : l.Nodup := by
  induction l generalizing h with
  | nil => exact nodup_nil
  | cons a l ih =>
    obtain ⟨-, hl⟩ := hc
    refine nodup_cons.mpr ⟨fun ha => ?_, ih hl⟩
    -- A second `a` would go on to the same chain, only shorter.
    obtain ⟨l2, h2, hlt⟩ := hl.suffix ha
    rw [hl.unique h2] at hlt
    exact Nat.lt_irrefl _ hlt

/-- No cell of a chain that ends points to itself. -/
theorem Chain.next_ne (ha : a ∈ l) : next a ≠ some a := by
  intro hna
  obtain ⟨l2, h2, -⟩ := hc.suffix ha
  have h3 := h2
  rw [hna] at h3
  cases l2 with
  | nil => cases h3
  | cons b l2 =>
    obtain ⟨⟨⟩, h3⟩ := h3
    have hlen := congrArg List.length (h2.unique h3)
    simp at hlen

theorem Chain.head_mem (ha : h = some a) : a ∈ l := by
  cases l with
  | nil =>
    rw [show h = none from hc] at ha
    cases ha
  | cons b l =>
    obtain ⟨hb, -⟩ := hc
    rw [hb] at ha
    cases ha
    exact mem_cons_self

end

theorem Chain.tail (hc : Chain next (some a) l) : ∃ l2, l = a :: l2 ∧ Chain next (next a) l2 := by
  cases l with
  | nil => cases hc
  | cons b l =>
    obtain ⟨⟨⟩, hl⟩ := hc
    exact ⟨l, rfl, hl⟩

end Chain

section DChain

variable {next prev next' prev' : α → Option α} {p h : Option α} {l : List α}

section

variable (hc : DChain next prev p h l)

include hc

theorem DChain.chain : Chain next h l := by
  induction l generalizing p h with
  | nil => exact hc
  | cons a l ih =>
    obtain ⟨hh, -, hl⟩ := hc
    exact ⟨hh, ih hl⟩

/-- A doubly linked chain depends on its own cells only. -/
theorem DChain.congr (hn : ∀ a ∈ l, next' a = next a) (hp : ∀ a ∈ l, prev' a = prev a) :
    DChain next' prev' p h l := by
  induction l generalizing p h with
  | nil => exact hc
  | cons a l ih =>
    obtain ⟨hh, hprev, hl⟩ := hc
    refine ⟨hh, by rw [hp a mem_cons_self, hprev], ?_⟩
    rw [hn a mem_cons_self]
    exact ih hl (fun b hb => hn b (mem_cons_of_mem _ hb))
      fun b hb => hp b (mem_cons_of_mem _ hb)

/-- The cell after a cell of the chain is in the chain, and is not its first one. -/
theorem DChain.next_mem (hx : x ∈ l) (hy : next x = some y) : y ∈ l ∧ h ≠ some y := by
  induction l generalizing p h with
  | nil => cases hx
  | cons a l ih =>
    have hnd := hc.chain.nodup
    obtain ⟨rfl, -, hl⟩ := hc
    have hmem : y ∈ l := by
      rcases mem_cons.mp hx with rfl | hx
      · exact hl.chain.head_mem hy
      · exact (ih hl hx).1
    refine ⟨mem_cons_of_mem _ hmem, ?_⟩
    rintro ⟨⟩
    exact (nodup_cons.mp hnd).1 hmem

/-- The cell before a cell of the chain is in the chain, or it is what the first cell
points back to. -/
theorem DChain.prev_mem (hx : x ∈ l) :
    h = some x ∧ prev x = p ∨ h ≠ some x ∧ ∃ y ∈ l, prev x = some y ∧ next y = some x := by
  induction l generalizing p h with
  | nil => cases hx
  | cons a l ih =>
    have hnd := hc.chain.nodup
    obtain ⟨rfl, hprev, hl⟩ := hc
    rcases mem_cons.mp hx with rfl | hxl
    · exact .inl ⟨rfl, hprev⟩
    · refine .inr ⟨?_, ?_⟩
      · rintro ⟨⟩
        exact (nodup_cons.mp hnd).1 hxl
      · rcases ih hl hxl with ⟨hn, hp⟩ | ⟨-, y, hy, hpy, hny⟩
        · exact ⟨a, mem_cons_self, hp, hn⟩
        · exact ⟨y, mem_cons_of_mem _ hy, hpy, hny⟩

end

/-- Only the first cell of a list has nothing before it. -/
theorem DChain.prev_eq_none (hc : DChain next prev none h l) (hx : x ∈ l) :
    prev x = none ↔ h = some x := by
  rcases hc.prev_mem hx with ⟨hh, hp⟩ | ⟨hh, y, -, hp, -⟩
  · simp [hh, hp]
  · simp [hh, hp]

theorem DChain.prev_ne (hc : DChain next prev none h l) (hx : x ∈ l) : prev x ≠ some x := by
  intro hpx
  rcases hc.prev_mem hx with ⟨-, hp⟩ | ⟨-, y, hy, hp, hn⟩
  · rw [hp] at hpx
    cases hpx
  · rw [hp] at hpx
    cases hpx
    exact hc.chain.next_ne hx hn

variable [DecidableEq α]

/-- Pointing the first cell back to another cell. -/
theorem DChain.relink (hc : DChain next prev p h l) (hn : ∀ a ∈ l, next' a = next a)
    (hp : ∀ a ∈ l, prev' a = if h = some a then q else prev a) :
    DChain next' prev' q h l := by
  cases l with
  | nil => exact hc
  | cons a l =>
    have hnd := hc.chain.nodup
    obtain ⟨rfl, -, hl⟩ := hc
    refine ⟨rfl, by rw [hp a mem_cons_self, if_pos rfl], ?_⟩
    rw [hn a mem_cons_self]
    refine hl.congr (fun b hb => hn b (mem_cons_of_mem _ hb)) fun b hb => ?_
    rw [hp b (mem_cons_of_mem _ hb), if_neg]
    rintro ⟨⟩
    exact (nodup_cons.mp hnd).1 hb

theorem DChain.push (hc : DChain next prev none h l) (hna : next' a = h) (hpa : prev' a = none)
    (hn : ∀ b ∈ l, next' b = next b)
    (hp : ∀ b ∈ l, prev' b = if h = some b then some a else prev b) :
    DChain next' prev' none (some a) (a :: l) :=
  ⟨rfl, hpa, by rw [hna]; exact hc.relink hn hp⟩

/-- Unlinking a cell: its neighbours are joined, and the head moves on if the cell was
the first one. -/
theorem DChain.unlink (hc : DChain next prev p h l) (hout : ∀ q, p = some q → q ∉ l) (hx : x ∈ l)
    (hn : ∀ a ∈ l, a ≠ x → next' a = if prev x = some a then next x else next a)
    (hp : ∀ a ∈ l, a ≠ x → prev' a = if next x = some a then prev x else prev a) :
    DChain next' prev' p (if h = some x then next x else h) (l.erase x) := by
  induction l generalizing p h with
  | nil => cases hx
  | cons a l ih =>
    have hnd := hc.chain.nodup
    obtain ⟨hal, hnd'⟩ := nodup_cons.mp hnd
    obtain ⟨rfl, hprev, hl⟩ := hc
    by_cases hax : a = x
    · subst hax
      rw [erase_cons_head, if_pos rfl]
      have hne : ∀ b ∈ l, b ≠ a := fun b hb hba => hal (hba ▸ hb)
      refine hl.relink (fun b hb => ?_) fun b hb => ?_
      · rw [hn b (mem_cons_of_mem _ hb) (hne b hb), if_neg]
        rw [hprev]
        exact fun hq => hout b hq (mem_cons_of_mem _ hb)
      · rw [hp b (mem_cons_of_mem _ hb) (hne b hb), hprev]
    · have hxl : x ∈ l := (mem_cons.mp hx).resolve_left fun h => hax h.symm
      rw [erase_cons_tail (by simpa using hax), if_neg (by simpa using hax)]
      refine ⟨rfl, ?_, ?_⟩
      · rw [hp a mem_cons_self hax, if_neg, hprev]
        exact fun hna => hal (hl.next_mem hxl hna).1
      · have hout' : ∀ q, some a = some q → q ∉ l := by
          rintro q ⟨⟩
          exact hal
        have hrest := ih hl hout' hxl (fun b hb => hn b (mem_cons_of_mem _ hb))
          fun b hb => hp b (mem_cons_of_mem _ hb)
        -- The cell before `x` is `a` exactly when `x` comes next.
        rw [hn a mem_cons_self hax]
        have hiff : prev x = some a ↔ next a = some x := by
          rcases hl.prev_mem hxl with ⟨hna, hpx⟩ | ⟨hna, y, hy, hpx, -⟩
          · simp [hna, hpx]
          · simp only [hna, hpx, iff_false, Option.some.injEq]
            rintro rfl
            exact hal hy
        simp only [hiff]
        exact hrest

end DChain

end LinkedList
