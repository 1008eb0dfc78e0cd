import Mathlib

/-!
# Order and masks on 64-bit words

The order of `UInt64` as a Mathlib linear order, the checked addition of machine
words, the power-of-two masks an alignment computation uses, read as division and
remainder, and the steps of a hash that keep words apart.
-/

namespace UInt64

instance instLinearOrder : LinearOrder UInt64 where
  le_refl := UInt64.le_refl
  le_trans _ _ _ := UInt64.le_trans
  le_antisymm _ _ := UInt64.le_antisymm
  le_total := UInt64.le_total
  lt_iff_le_not_ge a b := by
    simp only [UInt64.lt_iff_toNat_lt, UInt64.le_iff_toNat_le]
    omega
  toDecidableLE := inferInstance
  toDecidableEq := inferInstance
  toDecidableLT := inferInstance

/-! ## Checked addition -/

def checkedAdd (a b : UInt64) : Option UInt64 :=
  if a.toNat + b.toNat < UInt64.size then some (a + b) else none

theorem checkedAdd_eq_some {a b c : UInt64} (h : a.checkedAdd b = some c) :
    c.toNat = a.toNat + b.toNat := by
  unfold checkedAdd at h
  split at h
  next hlt =>
    cases h
    rw [UInt64.toNat_add]
    exact Nat.mod_eq_of_lt hlt
  next => cases h

/-- Moving the lower end of a distance up by `d` takes `d` off the distance. -/
theorem toNat_sub_add_add {a b d : UInt64} (h : d.toNat ≤ (a - b).toNat) :
    (a - (b + d)).toNat + d.toNat = (a - b).toNat := by
  have hsub : a - (b + d) = a - b - d := by grind
  rw [hsub, UInt64.toNat_sub_of_le _ _ (UInt64.le_iff_toNat_le.mpr h), Nat.sub_add_cancel h]

theorem sub_eq_zero_iff_eq {a b : UInt64} : a - b = 0 ↔ a = b := by grind

/-! ## Bits -/

theorem eq_of_testBit_eq {a b : UInt64} (h : ∀ i, a.toNat.testBit i = b.toNat.testBit i) : a = b :=
  UInt64.toNat_inj.mp (Nat.eq_of_testBit_eq h)

theorem or_and_distrib_right (a b c : UInt64) : (a ||| b) &&& c = a &&& c ||| b &&& c := by
  apply eq_of_testBit_eq
  intro i
  simp only [UInt64.toNat_and, UInt64.toNat_or, Nat.testBit_and, Nat.testBit_or]
  exact Bool.and_or_distrib_right _ _ _

/-- Clearing the low `k` bits of a number. -/
theorem testBit_div_mul_two_pow (n k i : Nat) :
    (n / 2 ^ k * 2 ^ k).testBit i = (decide (k ≤ i) && n.testBit i) := by
  rw [Nat.testBit_mul_two_pow]
  by_cases h : k ≤ i
  · simp only [h, decide_true, Bool.true_and, Nat.testBit_div_two_pow]
    rw [Nat.sub_add_cancel h]
  · simp [h]

/-- `a & !(m - 1)` for a power of two `m` rounds down to a multiple of `m`. -/
theorem toNat_and_not_mask {a m : UInt64} (hm : m.toNat = 2 ^ k) :
    (a &&& ~~~(m - 1)).toNat = a.toNat / 2 ^ k * 2 ^ k := by
  have hm1 : (m - 1).toNat = 2 ^ k - 1 := by
    rw [UInt64.toNat_sub_of_le, hm]
    · rfl
    · rw [UInt64.le_iff_toNat_le, hm]
      exact Nat.one_le_two_pow
  have hk : k < 64 := by
    by_contra hk
    have := m.toNat_lt
    have : 2 ^ 64 ≤ 2 ^ k := Nat.pow_le_pow_right (by omega) (by omega)
    omega
  apply Nat.eq_of_testBit_eq
  intro i
  rw [UInt64.toNat_and, Nat.testBit_and, testBit_div_mul_two_pow]
  by_cases hi : i < 64
  · have hn : (~~~(m - 1)).toNat.testBit i = decide (k ≤ i) := by
      have hlt : 2 ^ k - 1 < 2 ^ 64 :=
        Nat.lt_of_lt_of_le (Nat.sub_lt (Nat.two_pow_pos k) Nat.one_pos)
          (Nat.pow_le_pow_right (by omega) hk.le)
      rw [UInt64.toNat_not, hm1, Nat.sub_sub, Nat.add_comm 1,
        show UInt64.size = 2 ^ 64 from rfl, Nat.testBit_two_pow_sub_succ hlt,
        Nat.testBit_two_pow_sub_one]
      simp only [hi, decide_true, Bool.true_and]
      by_cases hki : k ≤ i
      · simp [hki, Nat.not_lt.mpr hki]
      · simp [hki, Nat.not_le.mp hki]
    rw [hn, Bool.and_comm]
  · have ha : a.toNat.testBit i = false := by
      apply Nat.testBit_lt_two_pow
      exact Nat.lt_of_lt_of_le a.toNat_lt (Nat.pow_le_pow_right (by omega) (by omega))
    simp [ha]

/-! ## Injective steps -/

/-- The exclusive or of a number with a copy of itself shifted to the right determines it. -/
theorem natXor_shiftRight_injective (hk : k ≠ 0)
    (h : x ^^^ (x >>> k) = y ^^^ (y >>> k)) : x = y := by
  -- The difference of the two is its own shift, so it is zero.
  have hshift : x ^^^ y = (x ^^^ y) >>> k := by
    rw [Nat.shiftRight_xor_distrib]
    calc x ^^^ y = (x ^^^ (x >>> k)) ^^^ (x >>> k) ^^^ y := by
          rw [Nat.xor_assoc x, Nat.xor_self, Nat.xor_zero]
      _ = (y ^^^ (y >>> k)) ^^^ (x >>> k) ^^^ y := by rw [h]
      _ = (x >>> k) ^^^ (y >>> k) := by
          rw [Nat.xor_comm y, Nat.xor_comm _ (x >>> k), ← Nat.xor_assoc, Nat.xor_assoc,
            Nat.xor_self, Nat.xor_zero]
  have hzero : x ^^^ y = 0 := by
    by_contra hne
    have hlt : (x ^^^ y) >>> k < x ^^^ y := by
      rw [Nat.shiftRight_eq_div_pow]
      exact Nat.div_lt_self (Nat.pos_of_ne_zero hne) (Nat.one_lt_two_pow hk)
    omega
  exact Nat.xor_eq_zero_iff.mp hzero

/-- Mixing a word with its own upper bits keeps words apart. -/
theorem xor_shiftRight_injective {k : UInt64} (hk : k.toNat % 64 ≠ 0)
    (h : x ^^^ (x >>> k) = y ^^^ (y >>> k)) : x = y := by
  have hnat := congrArg UInt64.toNat h
  rw [UInt64.toNat_xor, UInt64.toNat_xor, UInt64.toNat_shiftRight, UInt64.toNat_shiftRight] at hnat
  exact UInt64.toNat_inj.mp (natXor_shiftRight_injective hk hnat)

/-- A factor with an inverse can be cancelled. -/
theorem mul_right_cancel_of_mul_eq_one {c d : UInt64} (hcd : c * d = 1)
    (h : x * c = y * c) : x = y := by
  calc x = x * c * d := by rw [UInt64.mul_assoc, hcd, UInt64.mul_one]
    _ = y * c * d := by rw [h]
    _ = y := by rw [UInt64.mul_assoc, hcd, UInt64.mul_one]

end UInt64
