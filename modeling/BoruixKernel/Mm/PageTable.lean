import BoruixKernel.Mm.Addr

/-!
# Page-table flags and entries

The flag word, the 64-bit entry and the 512-entry table.  An entry packs a
frame address and flags into one word with `|`.  It reads back as what was packed
only when the address is page aligned and below `2^52` (`PageTableEntry.addr_pack`,
`PageTableEntry.flags_pack`).
-/

namespace BoruixKernel

/-! ## Flags -/

/-- All flag bits the type declares: bits 0 to 8 and bit 63. -/
def flagMask : UInt64 := 0x80000000000001ff

/-- A set of page-table flags.  The type has no way to hold an undeclared bit. -/
@[ext] structure PageTableFlags where
  /-- The flag word. -/
  bits : UInt64
  /-- Only declared bits are set. -/
  known : bits &&& flagMask = bits
deriving DecidableEq

namespace PageTableFlags

/-- The flags of a word, undeclared bits dropped. -/
def fromBitsTruncate (w : UInt64) : PageTableFlags :=
  ⟨w &&& flagMask, by rw [UInt64.and_assoc, UInt64.and_self]⟩

def empty : PageTableFlags := ⟨0, by decide⟩

/-- The entry is in use. -/
def PRESENT : PageTableFlags := ⟨(1 : UInt64) <<< 0, by decide⟩

/-- Writes are allowed. -/
def WRITABLE : PageTableFlags := ⟨(1 : UInt64) <<< 1, by decide⟩

/-- Accesses from ring 3 are allowed. -/
def USER_ACCESSIBLE : PageTableFlags := ⟨(1 : UInt64) <<< 2, by decide⟩

/-- The entry maps a huge frame instead of a table. -/
def HUGE_PAGE : PageTableFlags := ⟨(1 : UInt64) <<< 7, by decide⟩

/-- Instruction fetches are forbidden. -/
def NO_EXECUTE : PageTableFlags := ⟨(1 : UInt64) <<< 63, by decide⟩

def union (a b : PageTableFlags) : PageTableFlags :=
  ⟨a.bits ||| b.bits, by rw [UInt64.or_and_distrib_right, a.known, b.known]⟩

def inter (a b : PageTableFlags) : PageTableFlags :=
  ⟨a.bits &&& b.bits, by rw [UInt64.and_assoc, b.known]⟩

instance : OrOp PageTableFlags := ⟨union⟩
instance : AndOp PageTableFlags := ⟨inter⟩

@[simp] theorem or_bits (a b : PageTableFlags) : (a ||| b).bits = a.bits ||| b.bits := rfl

@[simp] theorem and_bits (a b : PageTableFlags) : (a &&& b).bits = a.bits &&& b.bits := rfl

/-- Whether all flags of `b` are in `a`. -/
def contains (a b : PageTableFlags) : Bool := a.bits &&& b.bits == b.bits

theorem contains_iff {a b : PageTableFlags} : a.contains b = true ↔ a.bits &&& b.bits = b.bits := by
  rw [contains, beq_iff_eq]

theorem contains_self (a : PageTableFlags) : a.contains a = true := by
  rw [contains_iff, UInt64.and_self]

theorem contains_or_left {a b c : PageTableFlags} (h : a.contains c = true) :
    (a ||| b).contains c = true := by
  rw [contains_iff] at h ⊢
  apply UInt64.eq_of_testBit_eq
  intro i
  have hi : (a.bits &&& c.bits).toNat.testBit i = c.bits.toNat.testBit i := by rw [h]
  simp only [or_bits, UInt64.toNat_and, UInt64.toNat_or, Nat.testBit_and, Nat.testBit_or] at hi ⊢
  revert hi
  cases a.bits.toNat.testBit i <;> cases b.bits.toNat.testBit i <;>
    cases c.bits.toNat.testBit i <;> decide

theorem or_comm (a b : PageTableFlags) : a ||| b = b ||| a := by
  ext1
  exact UInt64.or_comm _ _

theorem contains_or_right {a b c : PageTableFlags} (h : b.contains c = true) :
    (a ||| b).contains c = true := by
  rw [or_comm]
  exact contains_or_left h

/-- Containing a union is containing both sides. -/
theorem contains_or_iff {a b c : PageTableFlags} :
    a.contains (b ||| c) = true ↔ a.contains b = true ∧ a.contains c = true := by
  simp only [contains_iff, ← UInt64.toNat_inj, or_bits, UInt64.toNat_and, UInt64.toNat_or]
  constructor
  · intro h
    constructor
    all_goals
      apply Nat.eq_of_testBit_eq
      intro i
      have hi := congrArg (Nat.testBit · i) h
      simp only [Nat.testBit_and, Nat.testBit_or] at hi ⊢
      grind
  · rintro ⟨hb, hc⟩
    rw [Nat.and_or_distrib_left, hb, hc]

@[simp] theorem contains_empty (a : PageTableFlags) : a.contains empty = true := by
  rw [contains_iff]
  exact UInt64.and_zero

end PageTableFlags

/-! ## Entries -/

@[ext] structure PageTableEntry where
  /-- The entry word. -/
  entry : UInt64
deriving DecidableEq, Inhabited

/-- The address bits of an entry, 12 to 51. -/
def addrMask : UInt64 := 0x000ffffffffff000

namespace PageTableEntry

def new : PageTableEntry := ⟨0⟩

def isUnused (e : PageTableEntry) : Bool := e.entry == 0

def flags (e : PageTableEntry) : PageTableFlags := .fromBitsTruncate e.entry

def addr (e : PageTableEntry) : PhysAddr := ⟨e.entry &&& addrMask⟩

/-- The word `set_addr` stores.  The source asserts that the address is page
aligned first. -/
def pack (a : PhysAddr) (f : PageTableFlags) : PageTableEntry := ⟨a.asU64 ||| f.bits⟩

def present (e : PageTableEntry) : Bool := e.flags.contains .PRESENT

def huge (e : PageTableEntry) : Bool := e.flags.contains .HUGE_PAGE

end PageTableEntry

/-- A physical address an entry can hold: page aligned and below `2^52`. -/
def PhysAddr.Frame (p : PhysAddr) : Prop := p.asU64.toNat % 4096 = 0 ∧ p.asU64.toNat < 2 ^ 52

instance (p : PhysAddr) : Decidable p.Frame := inferInstanceAs (Decidable (_ ∧ _))

theorem PhysAddr.Frame.isAligned {p : PhysAddr} (h : p.Frame) : p.isAligned 4096 = true := by
  simp only [PhysAddr.isAligned, beq_iff_eq, ← UInt64.toNat_inj, UInt64.toNat_mod]
  exact h.1

namespace PageTableEntry

/-- The address bits of a word, as arithmetic. -/
theorem toNat_and_addrMask (w : UInt64) :
    (w &&& addrMask).toNat = w.toNat % 2 ^ 52 / 4096 * 4096 := by
  have hmask : addrMask = 0xfffffffffffff &&& ~~~((4096 : UInt64) - 1) := by decide
  rw [hmask, ← UInt64.and_assoc, UInt64.toNat_and_not_mask (k := 12) (by decide),
    UInt64.toNat_and, show (0xfffffffffffff : UInt64).toNat = 2 ^ 52 - 1 by decide,
    Nat.and_two_pow_sub_one_eq_mod]
  norm_num

/-- An entry only ever names a frame. -/
theorem addr_frame (e : PageTableEntry) : e.addr.Frame := by
  have h := toNat_and_addrMask e.entry
  constructor <;> simp only [addr] <;> omega

theorem and_addrMask_of_frame {a : PhysAddr} (ha : a.Frame) : a.asU64 &&& addrMask = a.asU64 := by
  obtain ⟨h1, h2⟩ := ha
  rw [← UInt64.toNat_inj, toNat_and_addrMask]
  omega

theorem addr_pack {a : PhysAddr} (ha : a.Frame) (f : PageTableFlags) : (pack a f).addr = a := by
  have hf : f.bits &&& addrMask = 0 := by
    rw [← f.known, UInt64.and_assoc, show flagMask &&& addrMask = 0 by decide, UInt64.and_zero]
  ext1
  simp only [addr, pack]
  rw [UInt64.or_and_distrib_right, and_addrMask_of_frame ha, hf, UInt64.or_zero]

theorem flags_pack (ha : a.Frame) (f : PageTableFlags) : (pack a f).flags = f := by
  have hz : a.asU64 &&& flagMask = 0 := by
    rw [← and_addrMask_of_frame ha, UInt64.and_assoc, show addrMask &&& flagMask = 0 by decide,
      UInt64.and_zero]
  ext1
  simp only [flags, pack, PageTableFlags.fromBitsTruncate]
  rw [UInt64.or_and_distrib_right, hz, f.known, UInt64.zero_or]

@[simp] theorem new_present : (new).present = false := by decide

theorem isUnused_of_present {e : PageTableEntry} (h : e.present = true) : e.isUnused = false := by
  by_contra hu
  have he : e = new := by
    ext1
    simpa [isUnused, new] using hu
  rw [he, new_present] at h
  cases h

end PageTableEntry

/-! ## Tables -/

abbrev PageTable := Fin 512 → PageTableEntry

namespace PageTable

/-- The table with every entry unused, as `zero` leaves it. -/
def zero : PageTable := fun _ => .new

/-- The number of present entries, by scanning the table. -/
def usedCount (t : PageTable) : UInt16 :=
  UInt16.ofNat ((List.finRange 512).countP fun i => (t i).present)

end PageTable

/-! ## Use counts

A side array keeps one 16-bit counter a frame, and a table's counter stands for its
number of used entries.  Atomic additions wrap. -/

structure PageTableCountTable where
  /-- The counter of each frame number. -/
  base : Nat → UInt16
  /-- How many frames have a counter. -/
  len : Nat

/-- Add `d` to the counter of a frame, if there is one. -/
def bumpTableCount (c : Option PageTableCountTable) (phys : PhysAddr) (d : UInt16) :
    Option PageTableCountTable :=
  c.map fun c =>
    if phys.pfn < c.len then
      { c with base := Function.update c.base phys.pfn (c.base phys.pfn + d) }
    else c

theorem bumpTableCount_of_lt (h : phys.pfn < c.len) (d : UInt16) : bumpTableCount (some c) phys d =
      some { c with base := Function.update c.base phys.pfn (c.base phys.pfn + d) } := by
  rw [bumpTableCount, Option.map_some, if_pos h]

def incTableCount (c : Option PageTableCountTable) (phys : PhysAddr) :
    Option PageTableCountTable :=
  bumpTableCount c phys 1

def decTableCount (c : Option PageTableCountTable) (phys : PhysAddr) :
    Option PageTableCountTable :=
  bumpTableCount c phys (-1)

/-- The counter of a frame, if there is one. -/
def tableCount (c : Option PageTableCountTable) (phys : PhysAddr) : Option UInt16 :=
  c.bind fun c => if phys.pfn < c.len then some (c.base phys.pfn) else none

end BoruixKernel
