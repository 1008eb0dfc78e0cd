import BoruixKernel.Lib.Bytes
import BoruixKernel.Lib.DeviceProgram

/-!
# An ideal disk

A disk that never fails, as a function from addresses to bytes.
-/

abbrev Disk := Nat → UInt8

namespace Disk

open List

variable (d : Disk) (off len : Nat) (data : List UInt8) {i : Nat}

def get : List UInt8 := (List.range len).map fun i => d (off + i)

def put : Disk := fun i => if off ≤ i ∧ i < off + data.length then data.getD (i - off) 0 else d i

def device (ε : Type) : Device Disk ε where
  read off len d := some (.ok (d.get off len), d)
  write off data d := some (.ok data.length, d.put off data)

@[simp] theorem length_get : (d.get off len).length = len := by
  simp [get]

theorem getD_get (h : i < len) : (d.get off len).getD i 0 = d (off + i) := by
  simp [get, getD_eq_getElem?_getD, h]

variable {d off len data}

theorem put_of_mem (h : off ≤ i) (h' : i < off + data.length) :
    d.put off data i = data.getD (i - off) 0 := if_pos ⟨h, h'⟩

theorem put_of_not_mem (h : i < off ∨ off + data.length ≤ i) : d.put off data i = d i := by
  refine if_neg ?_
  omega

theorem get_put (d : Disk) (off : Nat) (data : List UInt8) :
    (d.put off data).get off data.length = data := by
  refine ext_getElem (by simp) fun i h1 h2 => ?_
  have hi : i < data.length := h2
  simp only [get, getElem_map, getElem_range]
  rw [put_of_mem (by omega) (by omega), Nat.add_sub_cancel_left]
  simp [getD_eq_getElem?_getD, hi]

theorem get_congr {d' : Disk} (h : ∀ i, off ≤ i → i < off + len → d' i = d i) :
    d'.get off len = d.get off len := by
  refine map_congr_left fun i hi => ?_
  rw [mem_range] at hi
  exact h _ (by omega) (by omega)

theorem get_put_of_disjoint {off' : Nat} (h : off' + len ≤ off ∨ off + data.length ≤ off') :
    (d.put off data).get off' len = d.get off' len :=
  get_congr fun i hi hi' => put_of_not_mem (by omega)

theorem put_eq_self (h : ∀ i < data.length, d (off + i) = data.getD i 0) : d.put off data = d := by
  funext i
  by_cases hi : off ≤ i ∧ i < off + data.length
  · rw [put_of_mem hi.1 hi.2, ← h (i - off) (by omega), Nat.add_sub_cancel' hi.1]
  · exact if_neg hi

@[simp] theorem put_nil (d : Disk) (off : Nat) : d.put off [] = d :=
  put_eq_self fun _ hi => absurd hi (Nat.not_lt_zero _)

@[simp] theorem get_zero (d : Disk) (off : Nat) : d.get off 0 = [] := rfl

theorem get_add (d : Disk) (off m n : Nat) : d.get off (m + n) = d.get off m ++ d.get (off + m) n := by
  simp only [get, range_add, map_append, map_map]
  congr 1
  exact map_congr_left fun i _ => by rw [Function.comp_apply, Nat.add_assoc]

theorem slice_get (d : Disk) (h : rel + n ≤ len) :
    Bytes.slice rel n (d.get off len) = d.get (off + rel) n := by
  obtain ⟨rest, rfl⟩ := Nat.exists_eq_add_of_le h
  rw [Nat.add_assoc, get_add, Bytes.slice, drop_left' (length_get ..), get_add,
    take_left' (length_get ..)]

theorem put_append (d : Disk) (off : Nat) (a b : List UInt8) :
    (d.put off a).put (off + a.length) b = d.put off (a ++ b) := by
  funext i
  by_cases hb : off + a.length ≤ i ∧ i < off + a.length + b.length
  · rw [put_of_mem hb.1 hb.2, put_of_mem (by omega) (by rw [length_append]; omega),
      getD_append_right _ _ _ _ (by omega)]
    congr 1
    omega
  · rw [put_of_not_mem (by omega)]
    by_cases ha : off ≤ i ∧ i < off + a.length
    · rw [put_of_mem ha.1 ha.2, put_of_mem ha.1 (by rw [length_append]; omega),
        getD_append _ _ _ _ (by omega)]
    · rw [put_of_not_mem (by omega), put_of_not_mem (by rw [length_append]; omega)]

/-- Writing back what was read, with a part of it replaced. -/
theorem put_store_get (d : Disk) (h : rel + data.length ≤ len) :
    d.put off (Bytes.store rel data (d.get off len)) = d.put (off + rel) data := by
  have hlen : (Bytes.store rel data (d.get off len)).length = len := by
    rw [Bytes.length_store (by rw [length_get]; exact h), length_get]
  funext i
  by_cases hi : off ≤ i ∧ i < off + len
  · rw [put_of_mem hi.1 (by rw [hlen]; exact hi.2), Bytes.getD_store (by rw [length_get]; exact h)]
    split
    · next hin =>
      rw [put_of_mem (by omega) (by omega)]
      congr 1
      omega
    · next hout =>
      rw [put_of_not_mem (by omega), getD_get _ _ _ (by omega)]
      congr 1
      omega
  · rw [put_of_not_mem (by rw [hlen]; omega), put_of_not_mem (by omega)]

end Disk
