import BoruixKernel.Lib.UInt64

/-!
# Addresses

The address wrappers of the memory manager.  Both are a plain 64-bit word:
`VirtAddr::new` does not check that an address is canonical, so neither does the
model.
-/

namespace BoruixKernel

/-- The page size, and the alignment of every page-table frame. -/
def pageSize : UInt64 := 4096

@[ext] structure PhysAddr where
  /-- The address as a word. -/
  asU64 : UInt64
deriving DecidableEq, Repr, Inhabited

@[ext] structure VirtAddr where
  /-- The address as a word. -/
  asU64 : UInt64
deriving DecidableEq, Repr, Inhabited

namespace PhysAddr

def isAligned (p : PhysAddr) (align : UInt64) : Bool := p.asU64 % align == 0

/-- The frame number of an address. -/
def pfn (p : PhysAddr) : Nat := p.asU64.toNat / 4096

end PhysAddr

namespace VirtAddr

variable (v : VirtAddr)

def isAligned (align : UInt64) : Bool := v.asU64 % align == 0

/-- The address rounded down to a multiple of `align`. -/
def alignDown (align : UInt64) : VirtAddr := ⟨v.asU64 &&& ~~~(align - 1)⟩

/-- The address rounded up to a multiple of `align`, with the wrap-around of the
release build. -/
def alignUp (align : UInt64) : VirtAddr := ⟨(v.asU64 + align - 1) &&& ~~~(align - 1)⟩

/-- Nine bits of an address, as an index into a table of 512 entries. -/
def tableIndex (shift : UInt64) : Fin 512 :=
  ⟨((v.asU64 >>> shift) &&& 0x1ff).toNat,
    Nat.lt_of_le_of_lt (UInt64.toNat_and _ _ ▸ Nat.and_le_right) (by decide)⟩

def p4Index : Fin 512 := v.tableIndex 39

def p3Index : Fin 512 := v.tableIndex 30

def p2Index : Fin 512 := v.tableIndex 21

def p1Index : Fin 512 := v.tableIndex 12

theorem mod_of_isAligned {v : VirtAddr} (h : v.isAligned align = true) :
    v.asU64.toNat % align.toNat = 0 := by
  rw [isAligned, beq_iff_eq, ← UInt64.toNat_inj, UInt64.toNat_mod] at h
  exact h

/-- A table index is a digit of the address in base 512. -/
theorem tableIndex_val (shift : UInt64) (hs : shift.toNat < 64) :
    (v.tableIndex shift : Nat) = v.asU64.toNat / 2 ^ shift.toNat % 512 := by
  simp only [tableIndex]
  rw [UInt64.toNat_and, UInt64.toNat_shiftRight, Nat.mod_eq_of_lt hs, Nat.shiftRight_eq_div_pow,
    show (0x1ff : UInt64).toNat = 2 ^ 9 - 1 by decide, Nat.and_two_pow_sub_one_eq_mod]

/-- Rounding down to a page, as arithmetic. -/
theorem toNat_alignDown_page : (v.alignDown 4096).asU64.toNat = v.asU64.toNat / 4096 * 4096 :=
  UInt64.toNat_and_not_mask (k := 12) (by decide)

/-- An address and its page have the same table indices. -/
theorem tableIndex_alignDown_page (h12 : 12 ≤ shift.toNat) (h64 : shift.toNat < 64) :
    (v.alignDown 4096).tableIndex shift = v.tableIndex shift := by
  apply Fin.ext
  rw [tableIndex_val _ _ h64, tableIndex_val _ _ h64, toNat_alignDown_page]
  obtain ⟨k, hk⟩ := Nat.exists_eq_add_of_le h12
  rw [hk, Nat.pow_add, ← Nat.div_div_eq_div_mul, ← Nat.div_div_eq_div_mul,
    show (2 : Nat) ^ 12 = 4096 from rfl, Nat.mul_div_cancel _ (by decide : 0 < 4096)]

@[simp] theorem p4Index_alignDown_page : (v.alignDown 4096).p4Index = v.p4Index :=
  v.tableIndex_alignDown_page (by decide) (by decide)

@[simp] theorem p3Index_alignDown_page : (v.alignDown 4096).p3Index = v.p3Index :=
  v.tableIndex_alignDown_page (by decide) (by decide)

@[simp] theorem p2Index_alignDown_page : (v.alignDown 4096).p2Index = v.p2Index :=
  v.tableIndex_alignDown_page (by decide) (by decide)

@[simp] theorem p1Index_alignDown_page : (v.alignDown 4096).p1Index = v.p1Index :=
  v.tableIndex_alignDown_page (by decide) (by decide)

/-- Two page addresses are a multiple of the page size apart. -/
theorem alignDown_sub_mod (v w : VirtAddr) :
    ((v.alignDown 4096).asU64 - (w.alignDown 4096).asU64).toNat % 4096 = 0 := by
  rw [UInt64.toNat_sub, toNat_alignDown_page, toNat_alignDown_page]
  omega

/-- A canonical address: bits 48 to 63 repeat bit 47. -/
def Canonical : Prop :=
  v.asU64.toNat < 2 ^ 47 ∨ 2 ^ 64 - 2 ^ 47 ≤ v.asU64.toNat

instance : Decidable v.Canonical := inferInstanceAs (Decidable (_ ∨ _))

end VirtAddr

end BoruixKernel
