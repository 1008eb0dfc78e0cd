import BoruixKernel.Lib.Bytes

/-!
# One's complement sums

Data is summed as 16-bit words in network order, and the carries are added to the low word
until there are none.  The sum is a remainder by 65535 with two zeros: it is 0 only for a sum
without carries that is 0, and 65535 for every other multiple.
-/

namespace OnesComplement

open List

/-- Add the carries. -/
def fold (n : Nat) : Nat := if n < 2 ^ 16 then n else fold (n % 2 ^ 16 + n / 2 ^ 16)
termination_by n
decreasing_by omega

theorem fold_spec (n : Nat) : fold n < 2 ^ 16 ∧ fold n % 65535 = n % 65535 ∧ (fold n = 0 ↔ n = 0) := by
  fun_induction fold n with
  | case1 n h => exact ⟨h, rfl, Iff.rfl⟩
  | case2 n h ih => omega

/-- With the complement of a sum the sum has no zero bits. -/
theorem fold_complement (h : 0 < n) : fold (n + (65535 - fold n)) = 65535 := by
  have hn := fold_spec n
  have hsum := fold_spec (n + (65535 - fold n))
  omega

/-- The sum of the words of data; a last single byte is the high one of a word. -/
def total : List UInt8 → Nat
  | a :: b :: rest => Bytes.toNatBe [a, b] + total rest
  | [a] => a.toNat * 256
  | [] => 0

theorem total_append (h : 2 ∣ front.length) (rest : List UInt8) :
    total (front ++ rest) = total front + total rest := by
  fun_induction total front with
  | case1 a b front ih =>
    rw [cons_append, cons_append, total, ih (by simp only [length_cons] at h; omega), Nat.add_assoc]
  | case2 a => simp at h
  | case3 => simp

theorem total_le (data : List UInt8) : total data ≤ (data.length + 1) / 2 * 65535 := by
  fun_induction total data with
  | case1 a b rest ih =>
    have hword := Bytes.toNat_lt [b, a]
    change Bytes.toNat [b, a] + _ ≤ _
    simp only [length_cons, length_nil] at hword ⊢
    omega
  | case2 a =>
    have ha := a.toNat_lt
    simp only [length_singleton]
    omega
  | case3 => exact Nat.zero_le _

theorem total_ofNatBe (h : v < 2 ^ 16) : total (Bytes.ofNatBe 2 v) = v :=
  (Bytes.toNatBe_ofNatBe 2 v).trans (Nat.mod_eq_of_lt h)

/-- Writing a word over zeros adds it to the sum. -/
theorem total_store (hoff : 2 ∣ off) (h : Bytes.slice off 2 data = [0, 0])
    (hv : v < 2 ^ 16) : total (Bytes.store off (Bytes.ofNatBe 2 v) data) = total data + v := by
  have hlen := congrArg length h
  rw [Bytes.length_slice, length_cons, length_singleton] at hlen
  have heven : 2 ∣ (data.take off).length := by rwa [length_take_of_le (by omega)]
  have hdata : data = data.take off ++ ([0, 0] ++ data.drop (off + 2)) := by
    rw [← h, Bytes.slice, ← drop_drop, take_append_drop, take_append_drop]
  rw [Bytes.store, append_assoc, total_append heven, total_append (by simp), total_ofNatBe hv,
    Bytes.length_ofNatBe]
  conv_rhs => rw [hdata, total_append heven, total_append (by simp)]
  have hzero : total [0, 0] = 0 := rfl
  omega

end OnesComplement
