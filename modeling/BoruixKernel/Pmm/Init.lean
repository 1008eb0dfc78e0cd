import BoruixKernel.Pmm.Operations

/-!
# Initialising the frame allocator

`init` reads the memory map of the boot loader, places the tables of the allocator in
usable memory, and records the rest of the usable memory as regions, with metadata for
every frame of them.  Then it fills the reserve.

An entry of the map is a range of physical addresses, so it carries the fact that its
end is a 64-bit word.  A panic of the source is an error with its message.  The offset
of the physical map, without which `init` returns at once, is taken to be set.
-/

namespace BoruixKernel

open List

structure MemmapEntry where
  base : Nat
  len : Nat
  /-- The entry has the type `Usable`. -/
  usable : Bool
  fits : base + len < 2 ^ 64

/-- The frames of an entry are whole pages. -/
def MemmapEntry.PageAligned (e : MemmapEntry) : Prop := 4096 ∣ e.base ∧ 4096 ∣ e.len

/-- Two entries share no address. -/
def MemmapEntry.Apart (e e' : MemmapEntry) : Prop :=
  e.base + e.len ≤ e'.base ∨ e'.base + e'.len ≤ e.base

/-- What the boot loader guarantees. -/
structure MemmapOk (mmap : List MemmapEntry) : Prop where
  aligned : ∀ e ∈ mmap, e.usable → e.PageAligned
  apart : (mmap.filter (·.usable)).Pairwise MemmapEntry.Apart

namespace Pmm

/-- Room for regions beyond two for each usable entry. -/
def PADDING_REGIONS : Nat := 16

def alignPage (v : Nat) : Nat := alignFrame v 4096

/-! ## Placing the tables -/

/-- The sizes of the tables in bytes. -/
structure TableSizes where
  metadataMap : Nat
  uninitRegions : Nat
  metadataPool : Nat
  counts : Nat

/-- The physical addresses of the tables. -/
structure Storage where
  mapPaddr : Nat
  uninitPaddr : Nat
  poolPaddr : Nat
  countsPaddr : Nat
deriving DecidableEq, Repr

/-- The lowest address for a table. -/
def MIN_METADATA_BASE : Nat := 0x00100000

/-- The bytes of an entry from its first page boundary on. -/
def availBytes (e : MemmapEntry) : Nat := e.len - (alignPage e.base - e.base)

/-- Keep the entry with the most room, the first one if there are several. -/
def keepBest (best : Option (Nat × Nat)) (base avail : Nat) : Option (Nat × Nat) :=
  if best.all fun b => avail > b.2 then some (base, avail) else best

/-- The best entry that has room for `size` bytes, among those the filter accepts. -/
def bestEntry (accept : MemmapEntry → Bool) (size : Nat) (mmap : List MemmapEntry) :
    Option (Nat × Nat) :=
  mmap.foldl (fun best e =>
    if e.usable ∧ accept e ∧ availBytes e ≥ size then keepBest best e.base (availBytes e)
    else best) none

/-- `find_metadata_storage`: one entry for all tables, or else one for the pool and
another one for the rest. -/
def findMetadataStorage (mmap : List MemmapEntry) (sizes : TableSizes) : Except String Storage :=
  let mapUninitSize :=
    alignPage sizes.metadataMap + alignPage sizes.uninitRegions + alignPage sizes.counts
  let totalSize := mapUninitSize + alignPage sizes.metadataPool
  let high := fun e : MemmapEntry => decide (MIN_METADATA_BASE ≤ e.base)
  match bestEntry high totalSize mmap with
  | some (base, avail) =>
    let mapPaddr := alignPage base
    let uninitPaddr := alignPage (mapPaddr + sizes.metadataMap)
    let countsPaddr := alignPage (uninitPaddr + sizes.uninitRegions)
    let poolPaddr := alignPage (countsPaddr + sizes.counts)
    if poolPaddr + sizes.metadataPool > base + avail then
      .error "PMM: metadata placement exceeds region bounds"
    else .ok ⟨mapPaddr, uninitPaddr, poolPaddr, countsPaddr⟩
  | none =>
    match bestEntry high sizes.metadataPool mmap with
    | none => .error "PMM: Not enough memory for metadata pool!"
    | some (poolBase, _) =>
      match bestEntry high mapUninitSize mmap with
      | none => .error "PMM: Not enough memory for metadata map/uninit array!"
      | some best =>
        -- The second search does not ask for the lowest address.
        let other := fun e : MemmapEntry => decide (e.base ≠ poolBase)
        let mapEntry :=
          if best.1 = poolBase then bestEntry other mapUninitSize mmap else some best
        match mapEntry with
        | none => .error "PMM: Not enough separate memory for metadata map/uninit array!"
        | some (mapBase, mapAvail) =>
          let mapPaddr := alignPage mapBase
          let uninitPaddr := alignPage (mapPaddr + sizes.metadataMap)
          let countsPaddr := alignPage (uninitPaddr + sizes.uninitRegions)
          if countsPaddr + sizes.counts > mapBase + mapAvail then
            .error "PMM: metadata map/uninit placement exceeds region bounds"
          else .ok ⟨mapPaddr, uninitPaddr, alignPage poolBase, countsPaddr⟩

/-! ## Recording the regions -/

/-- The constants of the tables. -/
structure InitConfig where
  totalFrames : Nat
  metadataMapLen : Nat
  maxUninitRegions : Nat

/-- What `init` has built so far: the metadata blocks, how many of the pool are used, and
the recorded regions. -/
structure InitState where
  metadata : Nat → Bool
  poolNext : Nat
  recorded : List UninitRegion

/-- Give metadata to `n` blocks from `block` on. -/
def allocBlocks (cfg : InitConfig) : Nat → Nat → InitState → Except String InitState
  | 0, _, st => .ok st
  | n + 1, block, st =>
    if block ≥ cfg.metadataMapLen then .ok st
    else if st.metadata block then allocBlocks cfg n (block + 1) st
    else if st.poolNext ≥ cfg.metadataMapLen then .error "PMM: metadata pool exhausted"
    else
      let metadata := Function.update st.metadata block true
      allocBlocks cfg n (block + 1) { st with metadata, poolNext := st.poolNext + 1 }

/-- Record the pages between two addresses.  A region that does not fit in the table is
dropped. -/
def processRange (cfg : InitConfig) (start stop : Nat) (st : InitState) :
    Except String InitState :=
  let current := alignPage start
  let blockSize := framesPerBlock * 4096
  if current ≥ stop then .ok st
  else do
    let firstBlock := current / blockSize
    let lastBlock := (stop - 1) / blockSize
    let st ← allocBlocks cfg (lastBlock + 1 - firstBlock) firstBlock st
    let startPfn := current / 4096
    let endPfn := stop / 4096
    if startPfn < endPfn ∧ st.recorded.length < cfg.maxUninitRegions then
      return { st with recorded := st.recorded ++ [⟨startPfn, endPfn⟩] }
    else return st

/-- Record the gap before a reserved range, if there is one. -/
def processGap (cfg : InitConfig) (current rStart : Nat) (st : InitState) :
    Except String InitState :=
  if rStart > current then processRange cfg current rStart st else .ok st

/-- Record the memory of an entry up to the last reserved range it meets. -/
def aroundReserved (cfg : InitConfig) (regionEnd : Nat) :
    List (Nat × Nat) → Nat → InitState → Except String (Nat × InitState)
  | [], current, st => .ok (current, st)
  | (rStart, rEnd) :: reserved, current, st => do
    if current < rEnd ∧ regionEnd > rStart then
      let st ← processGap cfg current rStart st
      aroundReserved cfg regionEnd reserved (alignPage (max current rEnd)) st
    else aroundReserved cfg regionEnd reserved current st

def processEntry (cfg : InitConfig) (reserved : List (Nat × Nat)) (e : MemmapEntry)
    (st : InitState) : Except String InitState := do
  let regionEnd := e.base + e.len
  let (current, st) ← aroundReserved cfg regionEnd reserved e.base st
  if current < regionEnd then processRange cfg current regionEnd st else return st

def processEntries (cfg : InitConfig) (reserved : List (Nat × Nat)) :
    List MemmapEntry → InitState → Except String InitState
  | [], st => .ok st
  | e :: entries, st => do
    let st ← if e.usable then processEntry cfg reserved e st else .ok st
    processEntries cfg reserved entries st

/-- The end of usable memory. -/
def maxPhysAddr (mmap : List MemmapEntry) : Nat :=
  mmap.foldl (fun m e => if e.usable ∧ e.base + e.len > m then e.base + e.len else m) 0

def initConfig (mmap : List MemmapEntry) : InitConfig :=
  let totalFrames := (maxPhysAddr mmap + 4095) / 4096
  { totalFrames
    metadataMapLen := (totalFrames + framesPerBlock - 1) / framesPerBlock
    maxUninitRegions := (mmap.filter (·.usable)).length * 2 + PADDING_REGIONS }

/-- The sizes of the tables: a pointer has 8 bytes, an optional region 24, a metadata
block 4096 and a count 2. -/
def tableSizes (cfg : InitConfig) : TableSizes :=
  { metadataMap := cfg.metadataMapLen * 8
    uninitRegions := cfg.maxUninitRegions * 24
    metadataPool := cfg.metadataMapLen * 4096
    counts := cfg.totalFrames * 2 }

/-- The ranges of the tables, sorted by their start. -/
def reservedRanges (sizes : TableSizes) (s : Storage) : List (Nat × Nat) :=
  List.insertionSort (fun a b => a.1 ≤ b.1)
    [(s.mapPaddr, s.mapPaddr + sizes.metadataMap),
      (s.uninitPaddr, s.uninitPaddr + sizes.uninitRegions),
      (s.countsPaddr, s.countsPaddr + sizes.counts),
      (s.poolPaddr, s.poolPaddr + sizes.metadataPool)]

/-- The regions and the metadata that `init` builds from a memory map. -/
def recordRegions (mmap : List MemmapEntry) : Except String InitState := do
  let cfg := initConfig mmap
  let sizes := tableSizes cfg
  let storage ← findMetadataStorage mmap sizes
  if storage.mapPaddr = 0 then throw "PMM: metadata map placed at paddr 0"
  processEntries cfg (reservedRanges sizes storage) mmap ⟨fun _ => false, 0, []⟩

/-- The allocator before the reserve is filled. -/
def ofRegions (cfg : InitConfig) (st : InitState) : Pmm where
  totalFrames := cfg.totalFrames
  metadata := st.metadata
  frames := fun _ => .new
  lists := fun _ _ => none
  caches := fun _ => ⟨fun _ => none, fun _ => 0⟩
  reserveHead := none
  reserveCount := 0
  regions := st.recorded.map some ++
    List.replicate (cfg.maxUninitRegions - st.recorded.length) none
  lastUninitIdx := 0
  allocatedFrames := 0
  allocCalls := 0
  compactLastAllocCall := 0

/-- `init`, for a kernel whose physical map is set up. -/
def init (mmap : List MemmapEntry) : Except String Pmm := do
  let st ← recordRegions mmap
  return initReserve reserveTarget (ofRegions (initConfig mmap) st)

theorem init_eq_ok (h : init mmap = .ok p) :
    ∃ st, recordRegions mmap = .ok st ∧ p = initReserve reserveTarget (ofRegions (initConfig mmap) st) := by
  unfold init at h
  cases hrecord : recordRegions mmap with
  | error msg =>
    rw [hrecord] at h
    cases h
  | ok st =>
    rw [hrecord] at h
    cases h
    exact ⟨st, rfl, rfl⟩

/-! ## What is recorded -/

section Recorded

variable {cfg : InitConfig} {st st' : InitState} {lo hi lo' hi' start stop : Nat}

/-- The recorded regions share no frame, lie below the end of memory, and their frames
have metadata. -/
structure InitState.Good (st : InitState) (cfg : InitConfig) : Prop where
  apart : st.recorded.Pairwise fun r r' => r.endPfn ≤ r'.startPfn ∨ r'.endPfn ≤ r.startPfn
  bound : ∀ r ∈ st.recorded, r.endPfn ≤ cfg.totalFrames
  metadata : ∀ r ∈ st.recorded, ∀ x, r.startPfn ≤ x → x < r.endPfn →
    st.metadata (x / framesPerBlock) = true

/-- No recorded region meets a range of addresses. -/
def InitState.Clear (st : InitState) (lo hi : Nat) : Prop :=
  ∀ r ∈ st.recorded, r.endPfn * 4096 ≤ lo ∨ hi ≤ r.startPfn * 4096

/-- All regions recorded since lie in a range of addresses. -/
def InitState.Extends (st st' : InitState) (lo hi : Nat) : Prop :=
  ∀ r ∈ st'.recorded, r ∈ st.recorded ∨ lo ≤ r.startPfn * 4096 ∧ r.endPfn * 4096 ≤ hi

theorem InitState.Clear.mono (h : st.Clear lo hi) (hlo : lo ≤ lo') (hhi : hi' ≤ hi) :
    st.Clear lo' hi' := by
  intro r hr
  have := h r hr
  omega

theorem InitState.Extends.mono (h : st.Extends st' lo hi) (hlo : lo' ≤ lo) (hhi : hi ≤ hi') :
    st.Extends st' lo' hi' := by
  intro r hr
  rcases h r hr with hr | hr
  · exact .inl hr
  · exact .inr (by omega)

theorem InitState.Extends.trans {st'' : InitState} (h : st.Extends st' lo hi)
    (h' : st'.Extends st'' lo hi) : st.Extends st'' lo hi := by
  intro r hr
  rcases h' r hr with hr | hr
  · exact h r hr
  · exact .inr hr

/-- What is recorded in one range leaves another one clear. -/
theorem InitState.Clear.extend (h : st.Clear lo' hi') (he : st.Extends st' lo hi)
    (hapart : hi ≤ lo' ∨ hi' ≤ lo) : st'.Clear lo' hi' := by
  intro r hr
  rcases he r hr with hr | hr
  · exact h r hr
  · omega

theorem le_alignPage (v : Nat) : v ≤ alignPage v := (TwoPow.roundUp_spec (by decide)).1

theorem alignPage_dvd (v : Nat) : 4096 ∣ alignPage v := (TwoPow.roundUp_spec (by decide)).2.2

theorem allocBlocks_spec (h : allocBlocks cfg n block st = .ok st') :
    st'.recorded = st.recorded ∧ (∀ b, st.metadata b = true → st'.metadata b = true) ∧
      ∀ b, block ≤ b → b < block + n → b < cfg.metadataMapLen → st'.metadata b = true := by
  induction n generalizing block st with
  | zero =>
    cases h
    exact ⟨rfl, fun _ => id, fun b hb hb' => by omega⟩
  | succ n ih =>
    rw [allocBlocks] at h
    split at h
    · cases h
      exact ⟨rfl, fun _ => id, fun b hb _ hlen => by omega⟩
    · split at h
      · next hmeta =>
        obtain ⟨hrec, hkeep, hnew⟩ := ih h
        refine ⟨hrec, hkeep, fun b hb hb' hlen => ?_⟩
        by_cases heq : b = block
        · exact heq ▸ hkeep block hmeta
        · exact hnew b (by omega) (by omega) hlen
      · split at h
        · cases h
        · obtain ⟨hrec, hkeep, hnew⟩ := ih h
          refine ⟨hrec, fun b hb => hkeep b ?_, fun b hb hb' hlen => ?_⟩
          · by_cases heq : b = block
            · simp [heq]
            · simpa [heq] using hb
          · by_cases heq : b = block
            · exact hkeep b (by simp [heq])
            · exact hnew b (by omega) (by omega) hlen

variable {x : Nat} {e : MemmapEntry} {recorded : List UninitRegion}

/-- The address of a page between an aligned address and another one. -/
theorem page_inside (hal : 4096 ∣ a) (hx : a / 4096 ≤ x) (hx' : x < stop / 4096) :
    a ≤ x * 4096 ∧ x * 4096 ≤ stop - 1 := by
  omega

/-- What one range adds. -/
theorem processRange_spec (h : processRange cfg start stop st = .ok st') :
    (∀ b, st.metadata b = true → st'.metadata b = true) ∧
      (st'.recorded = st.recorded ∨ ∃ r, st'.recorded = st.recorded ++ [r] ∧
        start ≤ r.startPfn * 4096 ∧ r.endPfn * 4096 ≤ stop ∧
        ∀ x, r.startPfn ≤ x → x < r.endPfn → x / framesPerBlock < cfg.metadataMapLen →
          st'.metadata (x / framesPerBlock) = true) := by
  unfold processRange at h
  simp only [] at h
  split at h
  · cases h
    exact ⟨fun _ => id, .inl rfl⟩
  · next hlt =>
    cases hblocks : allocBlocks cfg ((stop - 1) / (framesPerBlock * 4096) + 1 -
        alignPage start / (framesPerBlock * 4096)) (alignPage start / (framesPerBlock * 4096)) st with
    | error e =>
      rw [hblocks] at h
      cases h
    | ok st1 =>
      obtain ⟨hrec, hkeep, hnew⟩ := allocBlocks_spec hblocks
      rw [hblocks] at h
      simp only [bind, Except.bind] at h
      split at h
      · cases h
        refine ⟨hkeep, .inr ⟨_, by rw [hrec], ?_, ?_, fun x hx hx' hlen => ?_⟩⟩
        · rw [Nat.div_mul_cancel (alignPage_dvd start)]
          exact le_alignPage start
        · exact Nat.div_mul_le_self ..
        · have hblock : x / framesPerBlock = x * 4096 / (framesPerBlock * 4096) :=
            (Nat.mul_div_mul_right _ _ (by decide)).symm
          obtain ⟨hlo, hhi⟩ := page_inside (alignPage_dvd start) hx hx'
          refine hnew _ ?_ ?_ hlen
          · rw [hblock]
            exact Nat.div_le_div_right hlo
          · have h2 := Nat.div_le_div_right (c := framesPerBlock * 4096) hhi
            rw [hblock]
            omega
      · cases h
        exact ⟨hkeep, .inl hrec⟩

/-- A frame below the end of memory has a place in the metadata map. -/
theorem block_lt_metadataMapLen (hx : x < (initConfig mmap).totalFrames) :
    x / framesPerBlock < (initConfig mmap).metadataMapLen := by
  simp only [initConfig, framesPerBlock] at hx ⊢
  omega

section

variable (h : st.Good (initConfig mmap))

include h

theorem InitState.Good.processRange (hclear : st.Clear start stop)
    (hstop : stop ≤ (initConfig mmap).totalFrames * 4096)
    (hrun : Pmm.processRange (initConfig mmap) start stop st = .ok st') :
    st'.Good (initConfig mmap) ∧ st.Extends st' start stop := by
  obtain ⟨hkeep, hsame | ⟨r, hrec, hlo, hhi, hmeta⟩⟩ := processRange_spec hrun
  · refine ⟨⟨?_, ?_, ?_⟩, ?_⟩
    · rw [hsame]
      exact h.apart
    · rw [hsame]
      exact h.bound
    · rw [hsame]
      exact fun r hr x hx hx' => hkeep _ (h.metadata r hr x hx hx')
    · exact fun r hr => .inl (hsame ▸ hr)
  · have hend : r.endPfn ≤ (initConfig mmap).totalFrames := by omega
    have hmem : ∀ r' ∈ st'.recorded, r' ∈ st.recorded ∨ r' = r := by
      intro r' hr'
      rw [hrec] at hr'
      simpa using hr'
    refine ⟨⟨?_, fun r' hr' => ?_, fun r' hr' x hx hx' => ?_⟩, fun r' hr' => ?_⟩
    · rw [hrec, pairwise_append]
      refine ⟨h.apart, pairwise_singleton .., fun r' hr' r'' hr'' => ?_⟩
      obtain rfl := mem_singleton.mp hr''
      have := hclear r' hr'
      omega
    · rcases hmem r' hr' with hr' | rfl
      · exact h.bound r' hr'
      · exact hend
    · rcases hmem r' hr' with hr' | rfl
      · exact hkeep _ (h.metadata r' hr' x hx hx')
      · exact hmeta x hx hx' (block_lt_metadataMapLen (hx'.trans_le hend))
    · rcases hmem r' hr' with hr' | rfl
      · exact .inl hr'
      · exact .inr ⟨hlo, hhi⟩

theorem InitState.Good.processGap (hclear : st.Clear current rStart)
    (hstop : rStart ≤ (initConfig mmap).totalFrames * 4096)
    (hrun : Pmm.processGap (initConfig mmap) current rStart st = .ok st') :
    st'.Good (initConfig mmap) ∧ st.Extends st' current rStart := by
  unfold Pmm.processGap at hrun
  split at hrun
  · exact h.processRange hclear hstop hrun
  · cases hrun
    exact ⟨h, fun _ => .inl⟩

/-- Recording the gaps around the reserved ranges. -/
theorem InitState.Good.aroundReserved (hclear : st.Clear current regionEnd)
    (hend : regionEnd ≤ (initConfig mmap).totalFrames * 4096)
    (hreserved : ∀ r ∈ reserved, r.1 ≤ r.2)
    (hrun : Pmm.aroundReserved (initConfig mmap) regionEnd reserved current st =
      .ok (current', st')) :
    st'.Good (initConfig mmap) ∧ st.Extends st' current regionEnd ∧
      st'.Clear current' regionEnd ∧ current ≤ current' := by
  induction reserved generalizing current st with
  | nil =>
    cases hrun
    exact ⟨h, fun _ => .inl, hclear, Nat.le_refl _⟩
  | cons range reserved ih =>
    obtain ⟨rStart, rEnd⟩ := range
    have hle : rStart ≤ rEnd := hreserved _ mem_cons_self
    have hrest : ∀ r ∈ reserved, r.1 ≤ r.2 := fun r hr => hreserved r (mem_cons_of_mem _ hr)
    rw [Pmm.aroundReserved] at hrun
    split at hrun
    · next hmeet =>
      have hnext := le_alignPage (max current rEnd)
      cases hgap : Pmm.processGap (initConfig mmap) current rStart st with
      | error msg =>
        rw [hgap] at hrun
        cases hrun
      | ok st1 =>
        rw [hgap] at hrun
        obtain ⟨hgood1, hext1⟩ :=
          h.processGap (hclear.mono (Nat.le_refl _) hmeet.2.le) (by omega) hgap
        have hclear1 : st1.Clear (alignPage (max current rEnd)) regionEnd :=
          (hclear.mono (by omega) (Nat.le_refl _)).extend hext1 (.inl (by omega))
        obtain ⟨hgood, hext, hclear', hle'⟩ := ih hgood1 hclear1 hrest hrun
        exact ⟨hgood, (hext1.mono (Nat.le_refl _) hmeet.2.le).trans
          (hext.mono (by omega) (Nat.le_refl _)), hclear', by omega⟩
    · exact ih h hclear hrest hrun

theorem InitState.Good.processEntry (hclear : st.Clear e.base (e.base + e.len))
    (hend : e.base + e.len ≤ (initConfig mmap).totalFrames * 4096)
    (hreserved : ∀ r ∈ reserved, r.1 ≤ r.2)
    (hrun : Pmm.processEntry (initConfig mmap) reserved e st = .ok st') :
    st'.Good (initConfig mmap) ∧ st.Extends st' e.base (e.base + e.len) := by
  unfold Pmm.processEntry at hrun
  cases haround : Pmm.aroundReserved (initConfig mmap) (e.base + e.len) reserved e.base st with
  | error msg =>
    simp only [haround, bind, Except.bind] at hrun
    cases hrun
  | ok res =>
    obtain ⟨current, st1⟩ := res
    obtain ⟨hgood1, hext1, hclear1, hle⟩ := h.aroundReserved hclear hend hreserved haround
    simp only [haround, bind, Except.bind] at hrun
    split at hrun
    · obtain ⟨hgood, hext⟩ := hgood1.processRange hclear1 hend hrun
      exact ⟨hgood, hext1.trans (hext.mono hle (Nat.le_refl _))⟩
    · cases hrun
      exact ⟨hgood1, hext1⟩

theorem InitState.Good.processEntries (hclear : ∀ e ∈ entries, e.usable →
      st.Clear e.base (e.base + e.len))
    (hend : ∀ e ∈ entries, e.usable → e.base + e.len ≤ (initConfig mmap).totalFrames * 4096)
    (hapart : (entries.filter (·.usable)).Pairwise MemmapEntry.Apart)
    (hreserved : ∀ r ∈ reserved, r.1 ≤ r.2)
    (hrun : Pmm.processEntries (initConfig mmap) reserved entries st = .ok st') :
    st'.Good (initConfig mmap) := by
  induction entries generalizing st with
  | nil =>
    cases hrun
    exact h
  | cons e entries ih =>
    have hclear' : ∀ e' ∈ entries, e'.usable → st.Clear e'.base (e'.base + e'.len) :=
      fun e' he' => hclear e' (mem_cons_of_mem _ he')
    have hend' : ∀ e' ∈ entries, e'.usable →
        e'.base + e'.len ≤ (initConfig mmap).totalFrames * 4096 :=
      fun e' he' => hend e' (mem_cons_of_mem _ he')
    rw [Pmm.processEntries] at hrun
    split at hrun
    · next husable =>
      rw [filter_cons_of_pos husable, pairwise_cons] at hapart
      cases hentry : Pmm.processEntry (initConfig mmap) reserved e st with
      | error msg =>
        rw [hentry] at hrun
        cases hrun
      | ok st1 =>
        rw [hentry] at hrun
        obtain ⟨hgood1, hext1⟩ := h.processEntry (hclear e mem_cons_self husable)
          (hend e mem_cons_self husable) hreserved hentry
        refine ih hgood1 (fun e' he' hu' => ?_) hend' hapart.2 hrun
        exact (hclear' e' he' hu').extend hext1 (hapart.1 e' (mem_filter.mpr ⟨he', hu'⟩))
    · next husable =>
      rw [filter_cons_of_neg husable] at hapart
      exact ih h hclear' hend' hapart hrun

end

theorem le_maxPhysAddr (he : e ∈ mmap) (husable : e.usable) : e.base + e.len ≤ maxPhysAddr mmap := by
  have hfold : ∀ (l : List MemmapEntry) (m : Nat),
      m ≤ l.foldl (fun m e => if e.usable ∧ e.base + e.len > m then e.base + e.len else m) m ∧
      ∀ e ∈ l, e.usable → e.base + e.len ≤
        l.foldl (fun m e => if e.usable ∧ e.base + e.len > m then e.base + e.len else m) m := by
    intro l
    induction l with
    | nil => simp
    | cons a l ih =>
      intro m
      have hstep := ih (if a.usable ∧ a.base + a.len > m then a.base + a.len else m)
      refine ⟨le_trans ?_ hstep.1, fun e he hu => ?_⟩
      · split <;> omega
      · rcases mem_cons.mp he with rfl | he
        · refine le_trans ?_ hstep.1
          simp only [hu, true_and]
          split <;> omega
        · exact hstep.2 e he hu
  exact (hfold mmap 0).2 e he husable

theorem reservedRanges_le (hr : r ∈ reservedRanges sizes storage) : r.1 ≤ r.2 := by
  rw [reservedRanges, mem_insertionSort] at hr
  simp only [mem_cons, not_mem_nil, or_false] at hr
  rcases hr with rfl | rfl | rfl | rfl <;> simp

/-- What `init` records is sound. -/
theorem recordRegions_good (hmap : MemmapOk mmap) (h : recordRegions mmap = .ok st) :
    st.Good (initConfig mmap) := by
  unfold recordRegions at h
  cases hstorage : findMetadataStorage mmap (tableSizes (initConfig mmap)) with
  | error msg => simp [hstorage, bind, Except.bind] at h
  | ok storage =>
    simp only [hstorage, bind, Except.bind] at h
    split at h
    · cases h
    · refine InitState.Good.processEntries ⟨.nil, by simp, by simp⟩ (fun e _ _ => by
        simp [InitState.Clear]) ?_ hmap.apart (fun r hr => reservedRanges_le hr) h
      intro e he hu
      have := le_maxPhysAddr he hu
      simp only [initConfig]
      omega

/-- The owners after the regions are recorded: nothing is in a block. -/
def recordedOwners (recorded : List UninitRegion) : Owners := fun x =>
  if recorded.any fun r => r.startPfn ≤ x ∧ x < r.endPfn then some .uninit else none

theorem recordedOwners_uninit : recordedOwners recorded x = some .uninit ↔
      ∃ r ∈ recorded, r.startPfn ≤ x ∧ x < r.endPfn := by
  simp [recordedOwners]

theorem recordedOwners_not_block {b k : Nat} {pl : Place} :
    recordedOwners recorded x ≠ some (.block b k pl) := by
  unfold recordedOwners
  split <;> simp

/-- The table of regions holds the recorded ones first. -/
theorem ofRegions_getElem? {i : Nat} :
    (ofRegions cfg st).regions[i]? = some (some r) ↔ st.recorded[i]? = some r := by
  simp only [ofRegions, getElem?_append, length_map, getElem?_map,
    getElem?_replicate]
  split
  · next hi => simp
  · next hi =>
    have hnone : st.recorded[i]? = none := getElem?_eq_none (by omega)
    simp only [hnone, reduceCtorEq, iff_false]
    split <;> simp

/-- The allocator that `init` builds satisfies the invariant. -/
theorem InitState.Good.inv (h : st.Good cfg) :
    Inv (ofRegions cfg st) (recordedOwners st.recorded) := by
  refine ⟨⟨⟨?_, ?_, ?_, ?_, ?_⟩, ?_, ?_, ?_, ?_, ?_, ?_, ?_, ?_⟩, fun x => ?_, fun i j r r' hr hr' hne => ?_⟩
  · exact fun hx => absurd hx recordedOwners_not_block
  · exact fun hx => absurd hx recordedOwners_not_block
  · exact fun hx => absurd hx recordedOwners_not_block
  · exact fun hx => absurd hx recordedOwners_not_block
  · exact fun hx => absurd hx recordedOwners_not_block
  · intro x hx
    have huninit : recordedOwners st.recorded x = some .uninit := by
      unfold recordedOwners at hx ⊢
      split at hx
      · next hin => rw [if_pos hin]
      · exact absurd rfl hx
    obtain ⟨r, hr, hlo, hhi⟩ := recordedOwners_uninit.mp huninit
    exact ⟨hhi.trans_le (h.bound r hr), h.metadata r hr x hlo hhi⟩
  · intro o s
    exact ⟨[], rfl, fun f => ⟨nofun, fun hf => absurd hf.1 recordedOwners_not_block⟩⟩
  · intro c o
    exact ⟨[], rfl, fun f => ⟨nofun, fun hf => absurd hf recordedOwners_not_block⟩⟩
  · exact ⟨[], rfl, fun f => ⟨nofun, fun hf => absurd hf recordedOwners_not_block⟩⟩
  · exact fun hf => absurd hf recordedOwners_not_block
  · intro f hf
    cases hf
  · intro f hf
    cases hf
  · intro f
    have hnew : BuddyFrame.new.order < MAX_ORDER := by decide
    exact hnew
  · rw [recordedOwners_uninit]
    simp only [ofRegions_getElem?, mem_iff_getElem?]
    exact ⟨fun ⟨r, ⟨i, hi⟩, hx⟩ => ⟨i, r, hi, hx⟩, fun ⟨i, r, hi, hx⟩ => ⟨r, ⟨i, hi⟩, hx⟩⟩
  · rw [ofRegions_getElem?] at hr hr'
    obtain ⟨hi, rfl⟩ := List.getElem?_eq_some_iff.mp hr
    obtain ⟨hj, rfl⟩ := List.getElem?_eq_some_iff.mp hr'
    have hpair := pairwise_iff_getElem.mp h.apart
    rcases Nat.lt_or_gt_of_ne hne with hlt | hgt
    · exact hpair i j hi hj hlt
    · exact (hpair j i hj hi hgt).symm

/-- After `init`, nothing is held and all that was recorded is free. -/
theorem init_inv (hmap : MemmapOk mmap) (hrecord : recordRegions mmap = .ok st) :
    let p := initReserve reserveTarget (ofRegions (initConfig mmap) st)
    ∃ own, Inv p own ∧ own.usage = (recordedOwners st.recorded).usage ∧ p.allocatedFrames = 0 ∧
      Steps (ofRegions (initConfig mmap) st, recordedOwners st.recorded) (p, own) :=
  (recordRegions_good hmap hrecord).inv.initReserve (Nat.zero_add reserveTarget).le

end Recorded

end Pmm

end BoruixKernel
