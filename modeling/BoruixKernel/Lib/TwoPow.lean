import Mathlib

/-!
# Aligned blocks

Arithmetic of blocks whose size is a power of two and that start at a multiple of their
size: the buddy of a block, and rounding up.
-/

namespace TwoPow

/-- Two buddies are the halves of an aligned block of twice the size. -/
theorem buddy_cases (h : 2 ^ k ∣ b) : 2 ^ (k + 1) ∣ b ∧ b ^^^ 2 ^ k = b + 2 ^ k ∨
      2 ^ (k + 1) ∣ b ^^^ 2 ^ k ∧ b = (b ^^^ 2 ^ k) + 2 ^ k := by
  obtain ⟨m, rfl⟩ := h
  have hxor : 2 ^ k * m ^^^ 2 ^ k = 2 ^ k * (m ^^^ 1) := by
    have := Nat.shiftLeft_xor_distrib (a := m) (b := 1) (i := k)
    simp only [Nat.shiftLeft_eq, one_mul] at this
    rw [Nat.mul_comm, Nat.mul_comm (2 ^ k), this]
  rw [hxor, Nat.pow_succ]
  rcases Nat.even_or_odd m with hm | hm
  · refine .inl ⟨Nat.mul_dvd_mul_left _ hm.two_dvd, ?_⟩
    rw [Nat.xor_one_of_even hm, Nat.mul_succ]
  · obtain ⟨j, rfl⟩ := hm
    have hodd : 2 * j + 1 ^^^ 1 = 2 * j := Nat.xor_one_of_odd ⟨j, rfl⟩
    rw [hodd]
    exact .inr ⟨Nat.mul_dvd_mul_left _ ⟨j, rfl⟩, Nat.mul_succ ..⟩

/-- Rounding up to a multiple of a positive size. -/
theorem roundUp_spec (hs : 0 < s) :
    n ≤ (n + s - 1) / s * s ∧ (n + s - 1) / s * s < n + s ∧ s ∣ (n + s - 1) / s * s := by
  have hdiv := Nat.div_add_mod (n + s - 1) s
  have hmod := Nat.mod_lt (n + s - 1) hs
  rw [Nat.mul_comm] at hdiv
  refine ⟨by omega, by omega, Nat.dvd_mul_left ..⟩

end TwoPow
