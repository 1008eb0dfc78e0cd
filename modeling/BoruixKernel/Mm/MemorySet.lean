import BoruixKernel.Mm.VmaTreeInvariant

/-!
# Address spaces: the queries

A `MemorySet` owns a top-level table and a VMA tree.  This module holds what reads an
address space: the checks of a user range against the VMAs and against the tables,
and translation.  What a range check establishes for every byte of the range is
`MemorySet.checkRangeMapped_sound`.

The VMA tree changes only through `insert_area` and `clear`, so every `MemorySet`
carries the invariant of its tree.  The invariant is also what makes the loop of
`check_range` end: an area it moves on to always reaches beyond the current address.
-/

namespace BoruixKernel

open UInt64 VirtAddr

structure MemorySet where
  p4Phys : PhysAddr
  vma : VmaTree
  stackBottom : Option VirtAddr
  stackTop : Option VirtAddr
  stackLimit : Option VirtAddr
  /-- The tree satisfies its invariant. -/
  vma_good : vma.Good

/-! ## Lookups in the tree -/

variable {addr : VirtAddr} {a : MemoryArea} {size : UInt64} {ok : VirtAddr → Bool}

theorem findContaining_spec {addr : UInt64} (h : findContaining t addr = some a) :
    a ∈ areas t ∧ a.start.asU64 ≤ addr ∧ addr < a.end.asU64 := by
  induction t with
  | nil => cases h
  | node n l r ihl ihr =>
    unfold findContaining at h
    have hright : findContaining r addr = some a →
        a ∈ areas (.node n l r) ∧ a.start.asU64 ≤ addr ∧ addr < a.end.asU64 := by
      intro hr
      obtain ⟨hmem, hin⟩ := ihr hr
      exact ⟨by simp [hmem], hin⟩
    split at h
    next =>
      obtain ⟨hmem, hin⟩ := ihl h
      exact ⟨by simp [hmem], hin⟩
    next =>
      split at h
      next => exact hright h
      next hstart =>
        split at h
        next => exact hright h
        next hend =>
          cases h
          exact ⟨by simp, not_lt.mp hstart, not_le.mp hend⟩

variable {t : VmaTree} {required : PageTableFlags} {v : VirtAddr}

theorem VmaTree.Good.findNext_spec (ht : t.Good) (h : findNext t.root key = some a) :
    a ∈ areas t.root ∧ key ≤ a.start.asU64 := by
  rw [findNext_eq ht.shaped ht.apart.sorted] at h
  have hmem := List.mem_filter.mp (List.mem_of_mem_head? h)
  exact ⟨hmem.1, by simpa using hmem.2⟩

/-! ## `check_range` -/

/-- An area of the tree that, if it starts at or below `cur`, ends beyond it. -/
def AreaFrom (t : VmaTree) (cur : UInt64) (area : Option MemoryArea) : Prop :=
  ∀ a ∈ area, a ∈ areas t.root ∧ (a.start.asU64 ≤ cur → cur < a.end.asU64)

theorem VmaTree.Good.areaFrom_findNext (ht : t.Good) (cur : UInt64) :
    AreaFrom t cur (findNext t.root cur) := by
  intro a ha
  obtain ⟨hmem, hge⟩ := ht.findNext_spec ha
  refine ⟨hmem, fun hle => ?_⟩
  rw [le_antisymm hge hle]
  exact ht.apart.nonempty a hmem

theorem VmaTree.Good.areaFrom_first (ht : t.Good) (cur : UInt64) :
    AreaFrom t cur ((findContaining t.root cur).or (findNext t.root cur)) := by
  cases h : findContaining t.root cur with
  | none => exact ht.areaFrom_findNext cur
  | some a =>
    intro b hb
    cases hb
    obtain ⟨hmem, -, hlt⟩ := findContaining_spec h
    exact ⟨hmem, fun _ => hlt⟩

/-- The loop of `check_range` over `[cur, stop)`, at the area found for `cur`. -/
def checkRangeLoop (t : VmaTree) (ht : t.Good) (stop : UInt64) (required : PageTableFlags)
    (cur : UInt64) (currentArea : Option MemoryArea) (h : AreaFrom t cur currentArea) : Bool :=
  if hlt : cur < stop then
    match currentArea, h with
    | none, _ => false
    | some area, h =>
      if hstart : area.start.asU64 > cur then false
      else if !area.flags.contains required then false
      else
        let next := min stop area.end.asU64
        have _hnext : cur < next := lt_min hlt ((h area rfl).2 (not_lt.mp hstart))
        -- The loop condition for the next round.
        if next < stop then
          checkRangeLoop t ht stop required next (findNext t.root next) (ht.areaFrom_findNext next)
        else true
  else true
termination_by stop.toNat - cur.toNat
decreasing_by
  have hcur : cur.toNat < (min stop area.end.asU64).toNat := lt_iff_toNat_lt.mp _hnext
  rw [lt_iff_toNat_lt] at hlt
  omega

/-- Every address of `[cur, stop)` passes the loop in an area with the flags. -/
theorem checkRangeLoop_sound (hok : checkRangeLoop t ht stop required cur currentArea h = true)
    (x : UInt64) (hx : cur ≤ x)
    (hxs : x < stop) : ∃ a ∈ areas t.root, a.start.asU64 ≤ x ∧ x < a.end.asU64 ∧
      a.flags.contains required = true := by
  induction hn : stop.toNat - cur.toNat using Nat.strong_induction_on
    generalizing cur currentArea with
  | _ n ih =>
    have hlt : cur < stop := lt_of_le_of_lt hx hxs
    unfold checkRangeLoop at hok
    rw [dif_pos hlt] at hok
    cases currentArea with
    | none => cases hok
    | some area =>
      simp only at hok
      split at hok
      next => cases hok
      next hstart =>
        split at hok
        next => cases hok
        next hflags =>
          obtain ⟨hmem, hend⟩ := h area rfl
          have hcur : cur < area.end.asU64 := hend (not_lt.mp hstart)
          by_cases hin : x < area.end.asU64
          · exact ⟨area, hmem, (not_lt.mp hstart).trans hx, hin, by simpa using hflags⟩
          · have hnext : min stop area.end.asU64 ≤ x :=
              (min_le_right _ _).trans (not_lt.mp hin)
            have hstep : cur < min stop area.end.asU64 := lt_min hlt hcur
            rw [if_pos (lt_of_le_of_lt hnext hxs)] at hok
            refine ih _ ?_ hok hnext rfl
            rw [lt_iff_toNat_lt] at hstep hlt
            omega

namespace MemorySet

/-- Whether the areas cover a range with the required flags. -/
def checkRange (ms : MemorySet) (addr : VirtAddr) (size : UInt64) (required : PageTableFlags) :
    Bool :=
  if size = 0 then true
  else
    match addr.asU64.checkedAdd size with
    | none => false
    | some stop =>
      checkRangeLoop ms.vma ms.vma_good stop required addr.asU64
        ((findContaining ms.vma.root addr.asU64).or (findNext ms.vma.root addr.asU64))
        (ms.vma_good.areaFrom_first addr.asU64)

theorem checkRange_sound {ms : MemorySet} (h : ms.checkRange addr size required = true) (x : UInt64)
    (hx : addr.asU64 ≤ x) (hxs : x.toNat < addr.asU64.toNat + size.toNat) :
    ∃ a ∈ areas ms.vma.root, a.start.asU64 ≤ x ∧ x < a.end.asU64 ∧
      a.flags.contains required = true := by
  unfold checkRange at h
  split at h
  next hz =>
    rw [hz, UInt64.toNat_zero, Nat.add_zero] at hxs
    exact absurd (le_iff_toNat_le.mp hx) (Nat.not_le.mpr hxs)
  next =>
    split at h
    next => cases h
    next stop hstop =>
      refine checkRangeLoop_sound h x hx ?_
      rw [lt_iff_toNat_lt, checkedAdd_eq_some hstop]
      exact hxs

end MemorySet

/-! ## `check_range_mapped` -/

/-- Whether an entry is present with the required flags. -/
def entryAllows (flags required : PageTableFlags) : Bool :=
  flags.contains .PRESENT && flags.contains required

/-- The page loop of `check_range_mapped`: check `page`, stop at `last`, else go on one
page further.  Both are page aligned. -/
def checkPages (ok : VirtAddr → Bool) (page last : UInt64) (h : (last - page).toNat % 4096 = 0) :
    Bool :=
  if !ok ⟨page⟩ then false
  else if hlast : page = last then true
  else
    have hstep : (last - (page + 4096)).toNat + 4096 = (last - page).toNat :=
      toNat_sub_add_add (by
        have hne : (last - page).toNat ≠ 0 := fun h0 =>
          hlast (UInt64.sub_eq_zero_iff_eq.mp (UInt64.toNat_inj.mp h0)).symm
        change 4096 ≤ _
        omega)
    checkPages ok (page + 4096) last (by omega)
termination_by (last - page).toNat
decreasing_by omega

/-- The loop checks every page from the first to the last. -/
theorem checkPages_sound (hok : checkPages ok page last h = true) (k : Nat)
    (hk : 4096 * k ≤ (last - page).toNat) :
    ok ⟨page + UInt64.ofNat (4096 * k)⟩ = true := by
  fun_induction checkPages ok page last h generalizing k with
  | case1 => cases hok
  | case2 _ hpage =>
    have hk0 : k = 0 := by
      rw [UInt64.sub_self, UInt64.toNat_zero] at hk
      omega
    subst hk0
    simpa using hpage
  | case3 page h hpage _ hstep ih =>
    cases k with
    | zero => simpa using hpage
    | succ k =>
      have := ih hok k (by omega)
      rwa [UInt64.add_assoc, show (4096 : UInt64) = UInt64.ofNat 4096 from rfl,
        ← ofNat_add, show 4096 + 4096 * k = 4096 * (k + 1) by ring] at this

/-- The walk of `page_access_ok`: every entry down to the last level present with
`hierarchyRequired`, the entry that maps the page with `leafRequired`. -/
def walkAllows (tables : PhysAddr → PageTable) (p4 : PhysAddr) (page : VirtAddr)
    (hierarchyRequired leafRequired : PageTableFlags) : Bool :=
  let p4Entry := tables p4 page.p4Index
  if !entryAllows p4Entry.flags hierarchyRequired then false else
  let p3Entry := tables p4Entry.addr page.p3Index
  if !entryAllows p3Entry.flags hierarchyRequired then false else
  if p3Entry.huge then entryAllows p3Entry.flags leafRequired else
  let p2Entry := tables p3Entry.addr page.p2Index
  if !entryAllows p2Entry.flags hierarchyRequired then false else
  if p2Entry.huge then entryAllows p2Entry.flags leafRequired else
  let p1Entry := tables p2Entry.addr page.p1Index
  entryAllows p1Entry.flags leafRequired

namespace MemorySet

variable {σ : Type}

/-- Whether a page is mapped with the required access. -/
def pageAccessOk (ms : MemorySet) (s : MmState σ) (page : VirtAddr)
    (hierarchyRequired leafRequired : PageTableFlags) : Bool :=
  match s.physOffset with
  | none => false
  | some _ => walkAllows s.tables ms.p4Phys page hierarchyRequired leafRequired

/-- Whether a range is covered by areas and mapped, both with the required flags. -/
def checkRangeMapped (ms : MemorySet) (s : MmState σ) (addr : VirtAddr) (size : UInt64)
    (required : PageTableFlags) : Bool :=
  if !ms.checkRange addr size required then false
  else if size = 0 then true
  else
    match addr.asU64.checkedAdd size with
    | none => false
    | some stop =>
      let hierarchyRequired := required &&& (.USER_ACCESSIBLE ||| .WRITABLE)
      let page := VirtAddr.alignDown ⟨addr.asU64⟩ 4096
      let last := VirtAddr.alignDown ⟨stop - 1⟩ 4096
      checkPages (fun page => ms.pageAccessOk s page hierarchyRequired required) page.asU64
        last.asU64 (alignDown_sub_mod _ _)

/-- The physical address a virtual address translates to. -/
def translate (ms : MemorySet) (s : MmState σ) (addr : VirtAddr) : Option PhysAddr :=
  match s.physOffset with
  | none => none
  | some _ =>
    let p4Entry := s.tables ms.p4Phys addr.p4Index
    if !p4Entry.present then none else
    let p3Entry := s.tables p4Entry.addr addr.p3Index
    if !p3Entry.present then none else
    if p3Entry.huge then some ⟨p3Entry.addr.asU64 + (addr.asU64 &&& 0x3fffffff)⟩ else
    let p2Entry := s.tables p3Entry.addr addr.p2Index
    if !p2Entry.present then none else
    if p2Entry.huge then some ⟨p2Entry.addr.asU64 + (addr.asU64 &&& 0x1fffff)⟩ else
    let p1Entry := s.tables p2Entry.addr addr.p1Index
    if !p1Entry.present then none else
    some ⟨p1Entry.addr.asU64 + (addr.asU64 &&& 0xfff)⟩

end MemorySet

/-! ## What the checks establish -/

/-- The entries a translation reads, from the top-level table down to the entry that
maps the address or is not present. -/
def walkEntries (tables : PhysAddr → PageTable) (p4 : PhysAddr) (v : VirtAddr) :
    List PageTableEntry :=
  let p4Entry := tables p4 v.p4Index
  p4Entry :: if !p4Entry.present then [] else
  let p3Entry := tables p4Entry.addr v.p3Index
  p3Entry :: if !p3Entry.present || p3Entry.huge then [] else
  let p2Entry := tables p3Entry.addr v.p2Index
  p2Entry :: if !p2Entry.present || p2Entry.huge then [] else
  [tables p2Entry.addr v.p1Index]

theorem walkAllows_alignDown (tables : PhysAddr → PageTable) (p4 : PhysAddr) (v : VirtAddr)
    (hr lr : PageTableFlags) :
    walkAllows tables p4 (v.alignDown 4096) hr lr = walkAllows tables p4 v hr lr := by
  simp [walkAllows, p4Index_alignDown_page, p3Index_alignDown_page, p2Index_alignDown_page, p1Index_alignDown_page]

theorem entryAllows_iff {e : PageTableEntry} :
    entryAllows e.flags r = true ↔ e.present = true ∧ e.flags.contains r = true := by
  rw [entryAllows, Bool.and_eq_true, PageTableEntry.present]

/-- A walk passes when every entry it reads does. -/
theorem walkAllows_iff {tables : PhysAddr → PageTable} {p4 : PhysAddr} : walkAllows tables p4 v r r = true ↔
      ∀ e ∈ walkEntries tables p4 v, e.present = true ∧ e.flags.contains r = true := by
  simp only [← entryAllows_iff, walkAllows, walkEntries]
  generalize tables p4 v.p4Index = e4
  cases h4 : entryAllows e4.flags r with
  | false => simp [h4]
  | true =>
    generalize tables e4.addr v.p3Index = e3
    cases h3 : entryAllows e3.flags r with
    | false => simp [h4, h3, (entryAllows_iff.mp h4).1]
    | true =>
      generalize tables e3.addr v.p2Index = e2
      cases e3.huge with
      | true => simp [h4, h3, (entryAllows_iff.mp h4).1]
      | false =>
        cases h2 : entryAllows e2.flags r with
        | false => simp [h4, h3, h2, (entryAllows_iff.mp h4).1, (entryAllows_iff.mp h3).1]
        | true =>
          cases e2.huge <;>
            simp [h4, h3, h2, (entryAllows_iff.mp h4).1, (entryAllows_iff.mp h3).1,
              (entryAllows_iff.mp h2).1]

namespace MemorySet

variable {ms : MemorySet} {s : MmState σ}

/-- A walk over present entries ends in a translation. -/
theorem translate_isSome (hoff : s.physOffset = some off)
    (h : ∀ e ∈ walkEntries s.tables ms.p4Phys v, e.present = true) :
    (ms.translate s v).isSome := by
  simp only [walkEntries, List.mem_cons, forall_eq_or_imp] at h
  obtain ⟨h4, h⟩ := h
  simp only [h4, Bool.not_true, Bool.false_eq_true, if_false, List.mem_cons,
    forall_eq_or_imp] at h
  obtain ⟨h3, h⟩ := h
  simp only [translate, hoff, h4, h3, Bool.not_true, Bool.false_eq_true, if_false]
  split
  next => rfl
  next hh3 =>
    simp only [h3, hh3, Bool.not_true, Bool.or_self, Bool.false_eq_true, if_false, List.mem_cons,
      forall_eq_or_imp] at h
    obtain ⟨h2, h⟩ := h
    simp only [h2, Bool.not_true, Bool.false_eq_true, if_false]
    split
    next => rfl
    next hh2 => simp_all

/-- A page whose access check passes is read through allowed entries only. -/
theorem pageAccessOk_iff : ms.pageAccessOk s (v.alignDown 4096) r r = true ↔
      s.physOffset.isSome ∧ ∀ e ∈ walkEntries s.tables ms.p4Phys v,
        e.present = true ∧ e.flags.contains r = true := by
  unfold pageAccessOk
  cases s.physOffset with
  | none => simp
  | some off => simp [walkAllows_alignDown, walkAllows_iff]

/-- Every page that meets the range is one the page loop checks. -/
theorem checkPages_of_mem (hok : checkPages ok (VirtAddr.alignDown ⟨start⟩ 4096).asU64
      (VirtAddr.alignDown ⟨stop - 1⟩ 4096).asU64 h = true) (hx : start ≤ x) (hxs : x < stop) :
    ok (VirtAddr.alignDown ⟨x⟩ 4096) = true := by
  rw [le_iff_toNat_le] at hx
  rw [lt_iff_toNat_lt] at hxs
  have hone : (stop - 1).toNat = stop.toNat - 1 := by
    rw [UInt64.toNat_sub_of_le _ _ (by rw [UInt64.le_iff_toNat_le]; exact Nat.one_le_of_lt hxs)]
    rfl
  have hfirst := toNat_alignDown_page ⟨start⟩
  have hlast := toNat_alignDown_page ⟨stop - 1⟩
  have hpage := toNat_alignDown_page ⟨x⟩
  simp only [hone] at hfirst hlast hpage
  have hspan : ((VirtAddr.alignDown ⟨stop - 1⟩ 4096).asU64 -
      (VirtAddr.alignDown ⟨start⟩ 4096).asU64).toNat =
        (stop.toNat - 1) / 4096 * 4096 - start.toNat / 4096 * 4096 := by
    rw [UInt64.toNat_sub_of_le, hlast, hfirst]
    rw [le_iff_toNat_le, hlast, hfirst]
    omega
  have hk := checkPages_sound hok (x.toNat / 4096 - start.toNat / 4096) (by omega)
  have hhit : (VirtAddr.alignDown ⟨start⟩ 4096).asU64 +
      UInt64.ofNat (4096 * (x.toNat / 4096 - start.toNat / 4096)) =
        (VirtAddr.alignDown ⟨x⟩ 4096).asU64 := by
    have hxlt := x.toNat_lt
    rw [← UInt64.toNat_inj, UInt64.toNat_add, hfirst, hpage, UInt64.toNat_ofNat']
    omega
  rwa [hhit] at hk

/-- A range check that passes vouches for every byte of the range: an area with the
required flags contains it, and its translation goes through entries that are present
with the required flags. -/
theorem checkRangeMapped_sound (hreq : required &&& (.USER_ACCESSIBLE ||| .WRITABLE) = required)
    (h : ms.checkRangeMapped s addr size required = true) (x : VirtAddr) (hx : addr.asU64 ≤ x.asU64)
    (hxs : x.asU64.toNat < addr.asU64.toNat + size.toNat) :
    (∃ a ∈ areas ms.vma.root, a.contains x = true ∧ a.flags.contains required = true) ∧
      (ms.translate s x).isSome ∧
      ∀ e ∈ walkEntries s.tables ms.p4Phys x,
        e.present = true ∧ e.flags.contains required = true := by
  unfold checkRangeMapped at h
  split at h
  next => cases h
  next hrange =>
    obtain ⟨a, ha, hge, hlt, hflags⟩ :=
      checkRange_sound (by simpa using hrange) x.asU64 hx hxs
    refine ⟨⟨a, ha, by simp [MemoryArea.contains, hge, hlt], hflags⟩, ?_⟩
    split at h
    next hz =>
      rw [hz, UInt64.toNat_zero, Nat.add_zero] at hxs
      exact absurd (le_iff_toNat_le.mp hx) (Nat.not_le.mpr hxs)
    next =>
      split at h
      next => cases h
      next stop hstop =>
        have hxstop : x.asU64 < stop := by
          rw [lt_iff_toNat_lt, checkedAdd_eq_some hstop]
          exact hxs
        simp only [hreq] at h
        obtain ⟨hoff, hwalk⟩ := pageAccessOk_iff.mp (checkPages_of_mem h hx hxstop)
        obtain ⟨off, hoff⟩ := Option.isSome_iff_exists.mp hoff
        exact ⟨translate_isSome hoff fun e he => (hwalk e he).1, hwalk⟩

end MemorySet

end BoruixKernel
