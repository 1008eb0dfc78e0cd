import Mathlib

/-!
# Byte layouts

Numbers in either byte order and zero-padded fields, as lists of bytes.
-/

namespace Bytes

open List

/-- The `k` low bytes of a number, lowest first. -/
def ofNat : Nat → Nat → List UInt8
  | 0, _ => []
  | k + 1, v => UInt8.ofNat (v % 256) :: ofNat k (v / 256)

@[simp] theorem length_ofNat (k v : Nat) : (ofNat k v).length = k := by
  induction k generalizing v with
  | zero => rfl
  | succ k ih => rw [ofNat, length_cons, ih]

/-- The number with the given bytes, lowest first. -/
def toNat : List UInt8 → Nat
  | [] => 0
  | b :: bs => b.toNat + 256 * toNat bs

theorem toNat_ofNat (k v : Nat) : toNat (ofNat k v) = v % 256 ^ k := by
  induction k generalizing v with
  | zero => simp [ofNat, toNat, Nat.mod_one]
  | succ k ih =>
    have hbyte : (UInt8.ofNat (v % 256)).toNat = v % 256 := by
      rw [UInt8.toNat_ofNat']
      omega
    rw [ofNat, toNat, ih, hbyte, Nat.pow_succ, Nat.mul_comm (256 ^ k), Nat.mod_mul]

theorem toNat_lt (bs : List UInt8) : toNat bs < 256 ^ bs.length := by
  induction bs with
  | nil => decide
  | cons b bs ih =>
    have hb := b.toNat_lt
    rw [toNat, length_cons, Nat.pow_succ]
    omega

/-- The digits of the number are its bytes. -/
theorem toNat_div_mod (bs : List UInt8) (k : Nat) :
    toNat bs / 256 ^ k % 256 = (bs.getD k 0).toNat := by
  induction k generalizing bs with
  | zero =>
    cases bs with
    | nil => rfl
    | cons b bs =>
      have hb := b.toNat_lt
      rw [toNat, Nat.pow_zero, Nat.div_one, getD_cons_zero]
      omega
  | succ k ih =>
    cases bs with
    | nil => rw [toNat, Nat.zero_div, getD_nil]; rfl
    | cons b bs =>
      have hb := b.toNat_lt
      have hdiv : toNat (b :: bs) / 256 = toNat bs := by
        rw [toNat]
        omega
      rw [Nat.pow_succ', ← Nat.div_div_eq_div_mul, hdiv, ih, getD_cons_succ]

/-- The `k` low bytes of a number, highest first. -/
def ofNatBe (k v : Nat) : List UInt8 := (ofNat k v).reverse

/-- The number with the given bytes, highest first. -/
def toNatBe (bs : List UInt8) : Nat := toNat bs.reverse

@[simp] theorem length_ofNatBe (k v : Nat) : (ofNatBe k v).length = k := by
  rw [ofNatBe, length_reverse, length_ofNat]

theorem toNatBe_ofNatBe (k v : Nat) : toNatBe (ofNatBe k v) = v % 256 ^ k := by
  rw [toNatBe, ofNatBe, reverse_reverse, toNat_ofNat]

/-- At most `limit` of the given bytes, filled up with zeros to `len`. -/
def field (len limit : Nat) (bs : List UInt8) : List UInt8 :=
  bs.take limit ++ List.replicate (len - (bs.take limit).length) 0

theorem length_field (h : limit ≤ len) (bs : List UInt8) : (field len limit bs).length = len := by
  rw [field, length_append, length_replicate]
  have := length_take_le limit bs
  omega

/-- Fill up with zeros to a length. -/
def fill (len : Nat) (bs : List UInt8) : List UInt8 := bs ++ List.replicate (len - bs.length) 0

/-- Put bytes in the place of those from an offset on. -/
def store (off : Nat) (buf bs : List UInt8) : List UInt8 :=
  bs.take off ++ buf ++ bs.drop (off + buf.length)

/-- The bytes of a range. -/
def slice (off len : Nat) (bs : List UInt8) : List UInt8 := (bs.drop off).take len

theorem length_fill (len : Nat) (bs : List UInt8) : (fill len bs).length = max len bs.length := by
  rw [fill, length_append, length_replicate]
  omega

/-- Beyond the end there are zeros, filled up or not. -/
@[simp] theorem getD_fill (len : Nat) (bs : List UInt8) (i : Nat) :
    (fill len bs).getD i 0 = bs.getD i 0 := by
  rw [fill, getD_eq_getElem?_getD, getD_eq_getElem?_getD, getElem?_append]
  split
  · rfl
  · next h =>
    rw [getElem?_eq_none (Nat.not_lt.mp h), getElem?_replicate]
    split <;> rfl

theorem length_store (h : off + buf.length ≤ bs.length) :
    (store off buf bs).length = bs.length := by
  simp only [store, length_append, length_take, length_drop]
  omega

theorem getD_store (h : off + buf.length ≤ bs.length) (i : Nat) : (store off buf bs).getD i 0 =
      if off ≤ i ∧ i < off + buf.length then buf.getD (i - off) 0 else bs.getD i 0 := by
  have htake : (bs.take off).length = off := by
    rw [length_take]
    omega
  simp only [store, getD_eq_getElem?_getD, append_assoc]
  by_cases hlt : i < off
  · rw [getElem?_append_left (by omega), getElem?_take_of_lt hlt, if_neg (by omega)]
  · rw [getElem?_append_right (by omega), htake]
    by_cases hin : i < off + buf.length
    · rw [getElem?_append_left (by omega), if_pos (by omega)]
    · rw [getElem?_append_right (by omega), getElem?_drop, if_neg (by omega)]
      congr 2
      omega

theorem length_slice (off len : Nat) (bs : List UInt8) :
    (slice off len bs).length = min len (bs.length - off) := by
  rw [slice, length_take, length_drop]

theorem getD_slice (bs : List UInt8) (h : i < len) :
    (slice off len bs).getD i 0 = bs.getD (off + i) 0 := by
  rw [slice, getD_eq_getElem?_getD, getD_eq_getElem?_getD, getElem?_take_of_lt h,
    getElem?_drop]

/-- A slice, byte by byte. -/
theorem slice_eq_map (off len : Nat) (bs : List UInt8) :
    slice off len bs = (List.range (min len (bs.length - off))).map fun i => bs.getD (off + i) 0 := by
  refine ext_getElem (by rw [length_slice, length_map, length_range]) fun i h1 h2 => ?_
  rw [length_slice] at h1
  have hi : off + i < bs.length := by omega
  simp [slice, getD_eq_getElem?_getD, hi]

end Bytes
