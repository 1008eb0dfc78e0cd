import BoruixKernel.Mm.MemorySet

/-!
# User pointers

`validate_user_range` is the gate every system call puts in front of a user buffer.
It rejects what leaves the lower half and hands the rest to the address space of the
current task.  A length of zero passes without any check.
-/

namespace BoruixKernel

/-- The end of the user half. -/
def USER_RANGE_END : UInt64 := 0x0000800000000000

def requiredFlags (write : Bool) : PageTableFlags :=
  if write then .USER_ACCESSIBLE ||| .WRITABLE else .USER_ACCESSIBLE

/-- Whether a user buffer may be accessed; `current` is the address space of the
current task. -/
def validateUserRange {σ : Type} (s : MmState σ) (current : Option MemorySet) (buf len : UInt64)
    (write : Bool) : Bool :=
  if len = 0 then true
  else if buf ≥ USER_RANGE_END then false
  else
    match buf.checkedAdd len with
    | none => false
    | some stop =>
      if stop > USER_RANGE_END then false
      else
        match current with
        | none => false
        | some ms => ms.checkRangeMapped s ⟨buf⟩ len (requiredFlags write)

/-- What is known of a range of non-zero length that passes. -/
theorem validateUserRange_eq_true (hlen : 0 < len)
    (h : validateUserRange s current buf len write = true) :
    buf.toNat + len.toNat ≤ 0x0000800000000000 ∧
      ∃ ms, current = some ms ∧ ms.checkRangeMapped s ⟨buf⟩ len (requiredFlags write) = true := by
  unfold validateUserRange at h
  rw [if_neg hlen.ne'] at h
  split at h
  next => cases h
  next =>
    split at h
    next => cases h
    next stop hstop =>
      split at h
      next => cases h
      next hend =>
        split at h
        next => cases h
        next ms =>
          refine ⟨?_, ms, rfl, h⟩
          rw [← UInt64.checkedAdd_eq_some hstop]
          exact UInt64.le_iff_toNat_le.mp (not_lt.mp hend)

/-- The flags include user access, and write access for a write. -/
theorem contains_requiredFlags {f : PageTableFlags} : f.contains (requiredFlags write) = true ↔
      f.contains .USER_ACCESSIBLE = true ∧ (write = true → f.contains .WRITABLE = true) := by
  cases write with
  | false => simp [requiredFlags]
  | true => simp [requiredFlags, PageTableFlags.contains_or_iff]

/-- The user access to `x` is allowed: an area with the access rights contains it, it
translates, and every entry of the walk is present with the access rights. -/
def UserAccess {σ : Type} (s : MmState σ) (ms : MemorySet) (write : Bool) (x : VirtAddr) : Prop :=
  (∃ a ∈ areas ms.vma.root, a.contains x = true ∧ a.flags.contains .USER_ACCESSIBLE = true ∧
    (write = true → a.flags.contains .WRITABLE = true)) ∧
  (ms.translate s x).isSome ∧
  ∀ e ∈ walkEntries s.tables ms.p4Phys x,
    e.flags.contains .PRESENT = true ∧ e.flags.contains .USER_ACCESSIBLE = true ∧
      (write = true → e.flags.contains .WRITABLE = true)

/-- A range that passes with a non-zero length lies in the user half, and the access is
allowed at every byte of it. -/
theorem validateUserRange_sound {σ : Type} (s : MmState σ) (current : Option MemorySet)
    (buf len : UInt64) (write : Bool) (hlen : 0 < len)
    (h : validateUserRange s current buf len write = true) :
    buf.toNat + len.toNat ≤ 0x0000800000000000 ∧
      ∃ ms, current = some ms ∧ ∀ x : VirtAddr, buf.toNat ≤ x.asU64.toNat →
        x.asU64.toNat < buf.toNat + len.toNat →
          x.asU64 < 0x0000800000000000 ∧ UserAccess s ms write x := by
  obtain ⟨hend, ms, hms, hcheck⟩ := validateUserRange_eq_true hlen h
  refine ⟨hend, ms, hms, fun x hx hxs => ⟨?_, ?_⟩⟩
  · rw [UInt64.lt_iff_toNat_lt]
    exact Nat.lt_of_lt_of_le hxs hend
  · have hreq : requiredFlags write &&& (.USER_ACCESSIBLE ||| .WRITABLE) =
        requiredFlags write := by
      cases write <;> decide
    obtain ⟨⟨a, ha, hin, hflags⟩, htr, hwalk⟩ :=
      MemorySet.checkRangeMapped_sound hreq hcheck x (UInt64.le_iff_toNat_le.mpr hx) hxs
    exact ⟨⟨a, ha, hin, contains_requiredFlags.mp hflags⟩, htr, fun e he =>
      ⟨(hwalk e he).1, contains_requiredFlags.mp (hwalk e he).2⟩⟩

/-- An address space with one user page at `0x1000`. -/
def onePageSet : MemorySet where
  p4Phys := ⟨0x1000⟩
  vma := ⟨.node (.new (.new ⟨0x1000⟩ ⟨0x2000⟩ (.USER_ACCESSIBLE ||| .WRITABLE))) .nil .nil⟩
  stackBottom := none
  stackTop := none
  stackLimit := none
  vma_good := ⟨Shaped.single _, by simp [IntervalNode.new, MemoryArea.new], by simp⟩

/-- The tables of `onePageSet`: one table a level, and the page on frame `0x5000`. -/
def onePageState : MmState Unit where
  physOffset := some 0xffff800000000000
  tables p i :=
    let link (a : UInt64) : PageTableEntry :=
      .pack ⟨a⟩ (.PRESENT ||| .WRITABLE ||| .USER_ACCESSIBLE)
    if p = ⟨0x1000⟩ ∧ i.val = 0 then link 0x2000
    else if p = ⟨0x2000⟩ ∧ i.val = 0 then link 0x3000
    else if p = ⟨0x3000⟩ ∧ i.val = 0 then link 0x4000
    else if p = ⟨0x4000⟩ ∧ i.val = 1 then link 0x5000
    else .new
  counts := none
  rmap := ∅
  alloc := ()

theorem validateUserRange_onePage :
    validateUserRange onePageState (some onePageSet) 0x1000 4096 true = true := by
  decide +kernel

theorem validateUserRange_sound_onePage :
    UserAccess onePageState onePageSet true ⟨0x1fff⟩ := by
  obtain ⟨-, ms, hms, h⟩ := validateUserRange_sound onePageState (some onePageSet) 0x1000 4096 true
    (by decide) validateUserRange_onePage
  cases hms
  exact (h ⟨0x1fff⟩ (by decide) (by decide)).2

end BoruixKernel
