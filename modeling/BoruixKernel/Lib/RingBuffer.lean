import Mathlib

/-!
# Ring buffers

A buffer of fixed size, the index of the oldest element and the number of elements.  The
elements are read and written one by one, with indices taken modulo the size.  `contents`
is the queue the buffer stands for; reading takes from its front and writing adds at its
end as much as fits.
-/

structure RingBuffer (α : Type) (cap : Nat) where
  buf : List α
  head : Nat
  len : Nat
  length_buf : buf.length = cap
  head_lt : head < cap
  len_le : len ≤ cap

namespace RingBuffer

open List

variable {α : Type} {cap : Nat}

def new (cap : Nat) (hcap : 0 < cap) (a : α) : RingBuffer α cap :=
  ⟨List.replicate cap a, 0, 0, length_replicate, hcap, Nat.zero_le cap⟩

/-- Write elements one by one, from an index on. -/
def writeLoop (cap start : Nat) : List α → Nat → List α → List α
  | [], _, buf => buf
  | a :: input, i, buf => writeLoop cap start input (i + 1) (buf.set ((start + i) % cap) a)

theorem length_writeLoop (start i : Nat) (input buf : List α) :
    (writeLoop cap start input i buf).length = buf.length := by
  induction input generalizing i buf with
  | nil => rfl
  | cons a input ih => rw [writeLoop, ih, length_set]

/-- Add as many elements as fit. -/
def write (r : RingBuffer α cap) (input : List α) : Nat × RingBuffer α cap :=
  let k := min input.length (cap - r.len)
  (k, ⟨writeLoop cap (r.head + r.len) (input.take k) 0 r.buf, r.head, r.len + k,
    (length_writeLoop _ _ _ _).trans r.length_buf, r.head_lt, by
      have := r.len_le
      omega⟩)

theorem write_fst {r : RingBuffer α cap} (input : List α) :
    (r.write input).1 = min input.length (cap - r.len) := rfl

section Loops

variable [Inhabited α]

/-- Read elements one by one, with the index after the last of them. -/
def readLoop (buf : List α) (cap : Nat) : Nat → Nat → List α × Nat
  | 0, head => ([], head)
  | n + 1, head =>
    let rest := readLoop buf cap n ((head + 1) % cap)
    (buf.getD head default :: rest.1, rest.2)

theorem readLoop_snd_lt {head : Nat} (buf : List α) (n : Nat) (h : head < cap) :
    (readLoop buf cap n head).2 < cap := by
  induction n generalizing head with
  | zero => exact h
  | succ n ih => exact ih (Nat.mod_lt _ (Nat.zero_lt_of_lt h))

variable (r : RingBuffer α cap)

/-- Take at most `n` elements. -/
def read (n : Nat) : List α × RingBuffer α cap :=
  let k := min n r.len
  ((readLoop r.buf cap k r.head).1,
    ⟨r.buf, (readLoop r.buf cap k r.head).2, r.len - k, r.length_buf, readLoop_snd_lt r.buf k r.head_lt,
      Nat.le_trans (Nat.sub_le _ _) r.len_le⟩)

/-- The element at a distance from the oldest one. -/
def cell (i : Nat) : α := r.buf.getD ((r.head + i) % cap) default

/-- The elements, oldest first. -/
def contents : List α := (List.range r.len).map r.cell

end Loops

section Contents

variable [Inhabited α] {r : RingBuffer α cap}

@[simp] theorem length_contents : r.contents.length = r.len := by
  simp [contents]

theorem contents_new (hcap : 0 < cap) (a : α) : (new cap hcap a).contents = [] := rfl

theorem readLoop_eq (buf : List α) {head : Nat} (h : head < cap) (n : Nat) :
    readLoop buf cap n head =
      ((List.range n).map fun i => buf.getD ((head + i) % cap) default, (head + n) % cap) := by
  induction n generalizing head with
  | zero =>
    rw [readLoop, Nat.add_zero, Nat.mod_eq_of_lt h]
    rfl
  | succ n ih =>
    have hmod : ∀ i, ((head + 1) % cap + i) % cap = (head + (i + 1)) % cap := by
      intro i
      rw [Nat.mod_add_mod]
      congr 1
      omega
    rw [readLoop, ih (Nat.mod_lt _ (Nat.zero_lt_of_lt h)), range_succ_eq_map, map_cons,
      map_map, Nat.add_zero head, Nat.mod_eq_of_lt h]
    simp only [hmod]
    rfl

/-- Places at different distances from the oldest element are different. -/
theorem mod_ne {head i j : Nat} (hij : i < j) (hj : j < cap) : (head + i) % cap ≠ (head + j) % cap := by
  intro heq
  have hsub := Nat.sub_mod_eq_zero_of_mod_eq heq.symm
  have hdist : head + j - (head + i) = j - i := by omega
  rw [hdist, Nat.mod_eq_of_lt (by omega)] at hsub
  omega

/-- Written elements are read back; places before them are as they were. -/
theorem getD_writeLoop {buf input : List α} {head len i j : Nat} (hbuf : buf.length = cap)
    (hfits : len + i + input.length ≤ cap) (hj : j < len + i + input.length) :
    (writeLoop cap (head + len) input i buf).getD ((head + j) % cap) default =
      if j < len + i then buf.getD ((head + j) % cap) default else input.getD (j - (len + i)) default := by
  induction input generalizing i buf with
  | nil => rw [if_pos (by simpa using hj), writeLoop]
  | cons a input ih =>
    rw [length_cons] at hfits hj
    rw [writeLoop, ih (by rw [length_set, hbuf]) (by omega) (by omega)]
    have hplace : head + len + i = head + (len + i) := Nat.add_assoc _ _ _
    rcases Nat.lt_trichotomy j (len + i) with hlt | rfl | hgt
    · rw [if_pos (by omega), if_pos hlt, getD_eq_getElem?_getD, hplace,
        getElem?_set_ne (mod_ne hlt (by omega)).symm, ← getD_eq_getElem?_getD]
    · rw [if_pos (by omega), if_neg (Nat.lt_irrefl _), hplace, Nat.sub_self, getD_eq_getElem?_getD,
        getElem?_set_self (by rw [hbuf]; exact Nat.mod_lt _ (by omega))]
      rfl
    · have hsub : j - (len + i) = j - (len + (i + 1)) + 1 := by omega
      rw [if_neg (by omega), if_neg (by omega), hsub, getD_cons_succ]

theorem read_fst (n : Nat) : (r.read n).1 = r.contents.take n := by
  have hloop := congrArg Prod.fst (readLoop_eq r.buf r.head_lt (min n r.len))
  refine hloop.trans ?_
  change (List.range (min n r.len)).map r.cell = _
  rw [contents, ← map_take, take_range]

theorem contents_read (n : Nat) : (r.read n).2.contents = r.contents.drop n := by
  refine ext_getElem ?_ fun i h₁ h₂ => ?_
  · rw [length_contents, length_drop, length_contents]
    change r.len - min n r.len = _
    omega
  · rw [length_contents] at h₁
    change i < r.len - min n r.len at h₁
    simp only [contents, getElem_map, getElem_range, getElem_drop, cell, read,
      readLoop_eq r.buf r.head_lt, Nat.mod_add_mod]
    congr 2
    omega

theorem contents_write (input : List α) :
    (r.write input).2.contents = r.contents ++ input.take (r.write input).1 := by
  have hle := r.len_le
  have hlen : (input.take (r.write input).1).length = (r.write input).1 := by
    rw [length_take, write_fst]
    omega
  refine ext_getElem ?_ fun i h₁ h₂ => ?_
  · rw [length_append, length_contents, length_contents, hlen]
    rfl
  · have hi : i < r.len + 0 + (input.take (r.write input).1).length := by
      rw [hlen]
      rw [length_contents] at h₁
      exact h₁
    have hfits : r.len + 0 + (input.take (r.write input).1).length ≤ cap := by
      rw [hlen, write_fst]
      omega
    have hcell : (r.write input).2.cell i =
        if i < r.len + 0 then r.cell i else (input.take (r.write input).1).getD (i - (r.len + 0)) default :=
      getD_writeLoop r.length_buf hfits hi
    simp only [contents, getElem_map, getElem_range] at hcell ⊢
    rw [hcell, getElem_append]
    simp only [Nat.add_zero, length_map, length_range, getElem_map, getElem_range]
    split
    · rfl
    · next hge =>
      rw [getD_eq_getElem?_getD, getElem?_eq_getElem (by omega)]
      rfl

/-! What was received, followed by what is buffered, is what was sent. -/

theorem received_read (n : Nat) (h : received ++ r.contents = sent) :
    received ++ (r.read n).1 ++ (r.read n).2.contents = sent := by
  rw [read_fst, contents_read, append_assoc, take_append_drop, h]

theorem received_write (input : List α) (h : received ++ r.contents = sent) :
    received ++ (r.write input).2.contents = sent ++ input.take (r.write input).1 := by
  rw [contents_write, ← append_assoc, h]

end Contents

end RingBuffer
