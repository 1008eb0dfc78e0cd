import BoruixKernel.Pmm.Conservation

/-!
# Invalid frees

What `deallocate` does with a frame that starts no block of the client.  The check looks
at the tag of the frame.  A tag other than `Allocated` is set exactly on the first frames
of the blocks in the free lists and the caches (`Rep.free`, `Rep.cached`, `Rep.tag`), so
these are the frames it rejects, next to those that have no metadata.  All other frames
are accepted: the pages of the reserve, the frames inside a block, and those that are not
initialised yet.
-/

namespace BoruixKernel

open LinkedList

namespace Pmm

/-! ## What a rejected call leaves alone -/

/-- The lists with their counts, the regions and the counter are the same. -/
structure Unchanged (p p' : Pmm) : Prop where
  contents : ∀ c : Contents, c.Of p' ↔ c.Of p
  cacheCounts : ∀ cpu order, (p'.caches cpu).counts order = (p.caches cpu).counts order
  reserveCount : p'.reserveCount = p.reserveCount
  regions : p'.regions = p.regions
  allocatedFrames : p'.allocatedFrames = p.allocatedFrames

theorem Unchanged.refl (p : Pmm) : Unchanged p p := ⟨fun _ => .rfl, fun _ _ => rfl, rfl, rfl, rfl⟩

/-- The frame has no metadata, or starts a block of a free list or of a cache. -/
def Caught (p : Pmm) (pfn : Nat) : Prop :=
  pfn ≥ p.totalFrames ∨ p.metadata (pfn / framesPerBlock) = false ∨
    ∃ c : Contents, c.Of p ∧
      ((∃ order shard, pfn ∈ c.global order shard) ∨ ∃ cpu order, pfn ∈ c.cache cpu order)

/-- What the check of `deallocate` looks at. -/
def Rejected (p : Pmm) (pfn : Nat) : Prop :=
  pfn ≥ p.totalFrames ∨ p.metadata (pfn / framesPerBlock) = false ∨
    (p.frames pfn).state ≠ .Allocated

section Calls

variable {p : Pmm}

theorem Rejected.deallocate (h : p.Rejected pfn) (cpu : Nat) : p.deallocate cpu pfn = p := by
  unfold Pmm.deallocate
  split
  · rfl
  · next hlt =>
    split
    · rfl
    · next hmeta =>
      have hstate := (h.resolve_left hlt).resolve_left (by simpa using hmeta)
      rw [if_pos hstate]

theorem fetchSub_ne (h : order < MAX_ORDER) : fetchSub a (2 ^ order) ≠ a := by
  have hpos := Nat.two_pow_pos order
  have hlt : 2 ^ order < 2 ^ 64 :=
    Nat.pow_lt_pow_right (by decide) (h.trans (by decide))
  unfold fetchSub
  split <;> omega

/-- An accepted call changes the counter. -/
theorem Rep.accepted (h : Rep p own) (hacc : ¬ p.Rejected pfn) (cpu : Nat) :
    (p.deallocate cpu pfn).allocatedFrames ≠ p.allocatedFrames := by
  simp only [Rejected, not_or, not_not, Bool.not_eq_false] at hacc
  obtain ⟨hlt, hmeta, hstate⟩ := hacc
  unfold Pmm.deallocate
  rw [if_neg hlt, hmeta, if_neg (by simp), hstate, if_neg (by simp)]
  simp only []
  split
  · exact fetchSub_ne (h.orders pfn)
  · rw [(percpuPush_rest ..).allocatedFrames]
    exact fetchSub_ne (h.orders pfn)

theorem Rep.unchanged_iff (h : Rep p own) (cpu : Nat) :
    Unchanged p (p.deallocate cpu pfn) ↔ p.Rejected pfn := by
  constructor
  · intro hsame
    by_contra hacc
    exact h.accepted hacc cpu hsame.allocatedFrames
  · intro hrej
    rw [hrej.deallocate]
    exact .refl p

/-! ## The tags -/

/-- The contents are determined by the links. -/
theorem Contents.Of.lists {c : Contents} (h : Rep p own) (hof : c.Of p) : c.Lists own := by
  obtain ⟨c', hof', hlists⟩ := h.contents
  refine ⟨fun o s f => ?_, fun u o f => ?_, fun f => ?_⟩
  · rw [(hof.global o s).unique (hof'.global o s)]
    exact hlists.global o s f
  · rw [(hof.cache u o).unique (hof'.cache u o)]
    exact hlists.cache u o f
  · rw [hof.reserve.unique hof'.reserve]
    exact hlists.reserve f

/-- The check catches what is free, and nothing else. -/
theorem Rep.rejected_iff_caught (h : Rep p own) : p.Rejected pfn ↔ p.Caught pfn := by
  unfold Rejected Caught
  refine or_congr_right (or_congr_right ⟨fun hstate => ?_, ?_⟩)
  · obtain ⟨c, hof, hlists⟩ := h.contents
    refine ⟨c, hof, ?_⟩
    cases htag : (p.frames pfn).state with
    | Allocated => exact absurd htag hstate
    | FreeGlobal =>
      obtain ⟨o, hown⟩ := h.free htag
      exact .inl ⟨o, _, (hlists.global o _ pfn).mpr ⟨hown, rfl⟩⟩
    | FreePerCpu =>
      obtain ⟨o, u, hown⟩ := h.cached htag
      exact .inr ⟨u, o, (hlists.cache u o pfn).mpr hown⟩
  · rintro ⟨c, hof, ⟨o, s, hmem⟩ | ⟨u, o, hmem⟩⟩
    · have hown := ((hof.lists h).global o s pfn).mp hmem
      rw [(h.tag hown.1 nofun).2]
      exact nofun
    · have hown := ((hof.lists h).cache u o pfn).mp hmem
      rw [(h.tag hown nofun).2]
      exact nofun

end Calls

/-! ## Runs with invalid frees -/

/-- The runs of a client that may also free what it does not hold, as long as the frame
is one that `Caught` describes. -/
inductive FreeRun (mmap : List MemmapEntry) : Pmm → List (Nat × Nat) → Prop
  | init {p : Pmm} (hinit : init mmap = .ok p) : FreeRun mmap p []
  | alloc {p p' : Pmm} {held : List (Nat × Nat)} (hrun : FreeRun mmap p held) {cpu order pfn : Nat}
      (halloc : p.allocate cpu order = (.frame pfn, p')) : FreeRun mmap p' ((pfn, order) :: held)
  | fail {p p' : Pmm} {held : List (Nat × Nat)} (hrun : FreeRun mmap p held) {cpu order : Nat}
      (halloc : p.allocate cpu order = (.none, p')) : FreeRun mmap p' held
  | free {p : Pmm} {held : List (Nat × Nat)} (hrun : FreeRun mmap p held) {cpu order pfn : Nat}
      (hheld : (pfn, order) ∈ held) :
      FreeRun mmap (p.deallocate cpu pfn) (held.erase (pfn, order))
  | invalid {p : Pmm} {held : List (Nat × Nat)} (hrun : FreeRun mmap p held) {cpu pfn : Nat}
      (hnot : ∀ order, (pfn, order) ∉ held) (hcaught : p.Caught pfn) :
      FreeRun mmap (p.deallocate cpu pfn) held
  | compact {p : Pmm} {held : List (Nat × Nat)} (hrun : FreeRun mmap p held) :
      FreeRun mmap p.compact held

section Runs

variable {mmap : List MemmapEntry} {p : Pmm} {held : List (Nat × Nat)}

/-- Calls that are caught may be left out. -/
theorem FreeRun.pmmRun (hmap : MemmapOk mmap) (hrun : FreeRun mmap p held) :
    PmmRun mmap p held := by
  induction hrun with
  | init hinit => exact .init hinit
  | alloc _ halloc ih => exact .alloc ih halloc
  | fail _ halloc ih => exact .fail ih halloc
  | free _ hheld ih => exact .free ih hheld
  | compact _ ih => exact .compact ih
  | invalid _ _ hcaught ih =>
    obtain ⟨own, hledger⟩ := ih.ledger hmap
    rw [(hledger.inv.rejected_iff_caught.mpr hcaught).deallocate]
    exact ih

/-- Freeing a frame leaves all as it is exactly if `Caught` describes the frame.  The
frame may be any, in particular one that starts no block of the client. -/
theorem FreeRun.unchanged_iff_caught (hmap : MemmapOk mmap) (hrun : FreeRun mmap p held)
    (cpu pfn : Nat) :
    Unchanged p (p.deallocate cpu pfn) ↔ p.Caught pfn := by
  obtain ⟨own, hledger⟩ := (hrun.pmmRun hmap).ledger hmap
  rw [hledger.inv.toRep.unchanged_iff, hledger.inv.rejected_iff_caught]

end Runs

theorem smallMap_init : ∃ p, init smallMap = .ok p ∧ p.totalFrames = 320 ∧
    p.reserveHead = some 294 ∧ (p.deallocate 0 294).allocatedFrames ≠ p.allocatedFrames :=
  exists_init smallMap (fun p => p.totalFrames = 320 ∧ p.reserveHead = some 294 ∧
    (p.deallocate 0 294).allocatedFrames ≠ p.allocatedFrames) (by decide +kernel)

/-- A frame out of range is caught. -/
theorem unchanged_outOfRange : ∃ p, FreeRun smallMap p [] ∧ Unchanged p (p.deallocate 0 320) := by
  obtain ⟨p, hinit, htotal, -⟩ := smallMap_init
  have hrun : FreeRun smallMap p [] := .init hinit
  refine ⟨p, hrun, (FreeRun.unchanged_iff_caught smallMap_ok hrun 0 320).mpr ?_⟩
  exact .inl htotal.le

/-- A page of the reserve is accepted: it is in the reserve and in a cache afterwards. -/
theorem reserve_page_freed : ∃ p, FreeRun smallMap p [] ∧ p.reserveHead = some 294 ∧
    ¬ Unchanged p (p.deallocate 0 294) := by
  obtain ⟨p, hinit, -, hhead, hcount⟩ := smallMap_init
  exact ⟨p, .init hinit, hhead, fun hsame => hcount hsame.allocatedFrames⟩

end Pmm

end BoruixKernel
