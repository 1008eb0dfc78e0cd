import Std.Data.TreeMap
import BoruixKernel.Mm.PageTable

/-!
# The reverse map

For every physical frame the list of user mappings that point to it.  The source
keeps a `BTreeMap` from frame addresses to vectors and drops a key whose vector has
become empty.  Statistics counters and the migration lock are left out.
-/

namespace BoruixKernel

/-- One user mapping of a frame. -/
structure RmapEntry where
  p4Phys : PhysAddr
  vaddr : VirtAddr
  flags : PageTableFlags
deriving DecidableEq

abbrev Rmap := Std.TreeMap UInt64 (List RmapEntry)

variable (m : Rmap) (phys p4Phys : PhysAddr) (vaddr : VirtAddr)

def rmapAdd (flags : PageTableFlags) : Rmap :=
  m.insert phys.asU64 (m.getD phys.asU64 [] ++ [⟨p4Phys, vaddr, flags⟩])

/-- Forget the mappings of a frame at one virtual address of one address space. -/
def rmapRemove : Rmap :=
  match m[phys.asU64]? with
  | none => m
  | some vec =>
    let vec := vec.filter fun e => !(e.p4Phys == p4Phys && e.vaddr == vaddr)
    if vec.isEmpty then m.erase phys.asU64 else m.insert phys.asU64 vec

def rmapLookup (phys : PhysAddr) : List RmapEntry := m.getD phys.asU64 []

/-- Some mapping: the first one of the first frame. -/
def rmapAny : Option (PhysAddr × RmapEntry) :=
  m.toList.head?.bind fun (key, vec) => vec.head?.map fun e => (⟨key⟩, e)

theorem mem_of_rmapAny {m : Rmap} {phys : PhysAddr} {e : RmapEntry}
    (h : rmapAny m = some (phys, e)) : e ∈ rmapLookup m phys := by
  obtain ⟨⟨key, vec⟩, hhead, hvec⟩ := Option.bind_eq_some_iff.mp h
  obtain ⟨e', he', ⟨⟩⟩ := Option.map_eq_some_iff.mp hvec
  have hmem := Std.TreeMap.mem_toList_iff_getElem?_eq_some.mp (List.mem_of_head? hhead)
  rw [rmapLookup, Std.TreeMap.getD_eq_getD_getElem?, hmem]
  exact List.mem_of_head? he'

theorem rmapLookup_rmapAdd (flags : PageTableFlags) (f : PhysAddr) :
    rmapLookup (rmapAdd m phys p4Phys vaddr flags) f =
      if f = phys then rmapLookup m phys ++ [⟨p4Phys, vaddr, flags⟩] else rmapLookup m f := by
  unfold rmapLookup rmapAdd
  rw [Std.TreeMap.getD_insert]
  simp [Std.LawfulEqCmp.compare_eq_iff_eq, PhysAddr.ext_iff, eq_comm (a := phys.asU64)]

theorem rmapLookup_rmapRemove (f : PhysAddr) : rmapLookup (rmapRemove m phys p4Phys vaddr) f =
      if f = phys then
        (rmapLookup m phys).filter fun e => !(e.p4Phys == p4Phys && e.vaddr == vaddr)
      else rmapLookup m f := by
  unfold rmapLookup rmapRemove
  rw [Std.TreeMap.getD_eq_getD_getElem?, Std.TreeMap.getD_eq_getD_getElem?,
    Std.TreeMap.getD_eq_getD_getElem?]
  cases hm : m[phys.asU64]? with
  | none =>
    by_cases hf : f = phys
    · subst hf
      simp [hm]
    · simp [hf]
  | some vec =>
    have hk : compare phys.asU64 f.asU64 = .eq ↔ f = phys := by
      rw [Std.LawfulEqCmp.compare_eq_iff_eq, PhysAddr.ext_iff, eq_comm]
    simp only []
    split
    next hempty =>
      rw [Std.TreeMap.getElem?_erase]
      by_cases hf : f = phys
      · subst hf
        simpa using (List.isEmpty_iff.mp hempty).symm
      · simp [hf, hk]
    next =>
      rw [Std.TreeMap.getElem?_insert]
      by_cases hf : f = phys
      · subst hf
        simp
      · simp [hf, hk]

end BoruixKernel
