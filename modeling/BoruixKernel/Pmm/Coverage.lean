import BoruixKernel.Pmm.Meminfo
import BoruixKernel.Pmm.Placement

/-!
# What init records

The loop of `init` over the memory map has three reasons to lose memory: a metadata block is
missing from the pool, the table of regions is full, or an edge is rounded the wrong way.  None of
them applies.  The pool has a block for every entry of the metadata map (`PoolExact`), so it is never
exhausted.  With a table that is large enough the loop records exactly `entryRegions` for every
entry (`processEntries_eq`), and it is large enough, as a table lies in a single entry and so cuts
only that one (`length_mapRegions_le`).  The frames of `entryRegions` are those of the entry outside
the tables (`mem_cutRanges`).  What is left is the check that the metadata map is not at address
zero.
-/

namespace BoruixKernel

open List

namespace Pmm

/-! ## What is asked for -/

/-- The frame lies in an entry. -/
def HasFrame (e : MemmapEntry) (x : Nat) : Prop := e.base ≤ x * 4096 ∧ (x + 1) * 4096 ≤ e.base + e.len

/-- The frame shares an address with a range. -/
def Overlaps (x : Nat) (r : Nat × Nat) : Prop := r.1 < (x + 1) * 4096 ∧ x * 4096 < r.2

/-- The recorded regions share no frame, hold the frames of the usable entries outside the tables and
no others, and all these frames have metadata. -/
structure CoversExactly (mmap : List MemmapEntry) (tables : List (Nat × Nat)) (st : InitState) : Prop where
  apart : st.recorded.Pairwise fun r r' => r.endPfn ≤ r'.startPfn ∨ r'.endPfn ≤ r.startPfn
  covers : ∀ x, (∃ r ∈ st.recorded, r.startPfn ≤ x ∧ x < r.endPfn) ↔
    (∃ e ∈ mmap, e.usable ∧ HasFrame e x) ∧ ∀ r ∈ tables, ¬ Overlaps x r
  metadata : ∀ r ∈ st.recorded, ∀ x, r.startPfn ≤ x → x < r.endPfn →
    st.metadata (x / framesPerBlock) = true

/-! ## The loop with a table that is large enough -/

/-- The region of a range of addresses, if it has a whole page. -/
def rangeRegion (start stop : Nat) : List UninitRegion :=
  if alignPage start / 4096 < stop / 4096 then [⟨alignPage start / 4096, stop / 4096⟩] else []

/-- The ranges of an entry, from an address on, that `init` goes through. -/
def cutRanges (regionEnd : Nat) : List (Nat × Nat) → Nat → List (Nat × Nat)
  | [], current => if current < regionEnd then [(current, regionEnd)] else []
  | (rStart, rEnd) :: reserved, current =>
    if current < rEnd ∧ regionEnd > rStart then
      (if rStart > current then [(current, rStart)] else []) ++
        cutRanges regionEnd reserved (alignPage (max current rEnd))
    else cutRanges regionEnd reserved current

def rangeRegions (ranges : List (Nat × Nat)) : List UninitRegion :=
  ranges.flatMap fun r => rangeRegion r.1 r.2

def entryRegions (reserved : List (Nat × Nat)) (e : MemmapEntry) : List UninitRegion :=
  rangeRegions (cutRanges (e.base + e.len) reserved e.base)

def mapRegions (reserved : List (Nat × Nat)) (entries : List MemmapEntry) : List UninitRegion :=
  (entries.filter (·.usable)).flatMap (entryRegions reserved)

/-- The pool has given out one block for every entry of the metadata map that is set. -/
def PoolExact (cfg : InitConfig) (st : InitState) : Prop :=
  st.poolNext = (List.range cfg.metadataMapLen).countP st.metadata

section Loop

variable (reserved : List (Nat × Nat))

theorem countP_update (hb : f b = false) : (List.range n).countP (Function.update f b true) =
      (List.range n).countP f + if b < n then 1 else 0 := by
  induction n with
  | zero => rfl
  | succ n ih =>
    rw [range_succ, countP_append, countP_append, ih, countP_singleton,
      countP_singleton]
    by_cases heq : n = b
    · subst heq
      simp [hb]
    · rw [Function.update_of_ne heq]
      by_cases hlt : b < n
      · rw [if_pos hlt, if_pos (Nat.lt_succ_of_lt hlt)]
        omega
      · have hge : ¬ b < n + 1 := by omega
        rw [if_neg hlt, if_neg hge]
        omega

/-- The pool is not exhausted as long as an entry of the metadata map is not set. -/
theorem PoolExact.lt (h : PoolExact cfg st) (hb : b < cfg.metadataMapLen)
    (hfree : st.metadata b = false) : st.poolNext < cfg.metadataMapLen := by
  have hle := countP_le_length (p := st.metadata) (l := List.range cfg.metadataMapLen)
  rw [length_range] at hle
  refine Nat.lt_of_le_of_ne (h ▸ hle) fun heq => ?_
  have hall := countP_eq_length.mp ((h.symm.trans heq).trans length_range.symm) b
    (mem_range.mpr hb)
  rw [hfree] at hall
  cases hall

theorem PoolExact.allocBlocks (h : PoolExact cfg st) (n block : Nat) :
    ∃ st', Pmm.allocBlocks cfg n block st = .ok st' ∧ PoolExact cfg st' ∧ st'.recorded = st.recorded := by
  induction n generalizing block st with
  | zero => exact ⟨st, rfl, h, rfl⟩
  | succ n ih =>
    rw [Pmm.allocBlocks]
    split
    · exact ⟨st, rfl, h, rfl⟩
    · next hlt =>
      split
      · exact ih h (block + 1)
      · next hfree =>
        have hfree : st.metadata block = false := by simpa using hfree
        have hlt : block < cfg.metadataMapLen := Nat.lt_of_not_ge hlt
        rw [if_neg (Nat.not_le.mpr (h.lt hlt hfree))]
        have hexact : PoolExact cfg { st with metadata := Function.update st.metadata block true
                                              poolNext := st.poolNext + 1 } := by
          rw [PoolExact, countP_update hfree, if_pos hlt]
          exact congrArg (· + 1) h
        obtain ⟨st', hrun, hexact', hrec⟩ := ih hexact (block + 1)
        exact ⟨st', hrun, hexact', hrec⟩

/-- Recording a range never fails, and records its region if there is room in the table. -/
theorem PoolExact.processRange (h : PoolExact cfg st) (start stop : Nat) :
    ∃ st', Pmm.processRange cfg start stop st = .ok st' ∧ PoolExact cfg st' ∧
      (st.recorded.length + (rangeRegion start stop).length ≤ cfg.maxUninitRegions →
        st'.recorded = st.recorded ++ rangeRegion start stop) := by
  unfold Pmm.processRange rangeRegion
  simp only []
  split
  · next hge =>
    have hnone : ¬ alignPage start / 4096 < stop / 4096 := by omega
    refine ⟨st, rfl, h, fun _ => ?_⟩
    rw [if_neg hnone, append_nil]
  · obtain ⟨st1, hrun, hexact, hrec⟩ := h.allocBlocks ((stop - 1) / (framesPerBlock * 4096) + 1 -
      alignPage start / (framesPerBlock * 4096)) (alignPage start / (framesPerBlock * 4096))
    rw [hrun]
    simp only [bind, Except.bind]
    by_cases hpages : alignPage start / 4096 < stop / 4096
    · by_cases hroom : st1.recorded.length < cfg.maxUninitRegions
      · rw [if_pos ⟨hpages, hroom⟩, if_pos hpages]
        exact ⟨_, rfl, hexact, fun _ => by rw [hrec]⟩
      · rw [if_neg fun hc => hroom hc.2, if_pos hpages]
        refine ⟨_, rfl, hexact, fun hle => absurd hle ?_⟩
        rw [hrec] at hroom
        simp only [length_cons, length_nil]
        omega
    · rw [if_neg fun hc => hpages hc.1, if_neg hpages]
      exact ⟨_, rfl, hexact, fun _ => by rw [hrec, append_nil]⟩

theorem rangeRegions_append (rs rs' : List (Nat × Nat)) :
    rangeRegions (rs ++ rs') = rangeRegions rs ++ rangeRegions rs' := flatMap_append

theorem rangeRegions_singleton (start stop : Nat) :
    rangeRegions [(start, stop)] = rangeRegion start stop :=
  flatMap_singleton ..

/-- The gaps before the reserved ranges, and then the rest. -/
theorem PoolExact.aroundReserved (h : PoolExact cfg st) (regionEnd current : Nat) :
    ∃ current' st', Pmm.aroundReserved cfg regionEnd reserved current st = .ok (current', st') ∧
      PoolExact cfg st' ∧ ∃ before, rangeRegions (cutRanges regionEnd reserved current) =
        before ++ rangeRegions (if current' < regionEnd then [(current', regionEnd)] else []) ∧
      (st.recorded.length + before.length ≤ cfg.maxUninitRegions →
        st'.recorded = st.recorded ++ before) := by
  induction reserved generalizing current st with
  | nil => exact ⟨current, st, rfl, h, [], rfl, fun _ => (append_nil _).symm⟩
  | cons range reserved ih =>
    obtain ⟨rStart, rEnd⟩ := range
    rw [Pmm.aroundReserved, cutRanges]
    split
    · have hgap : ∃ st1, Pmm.processGap cfg current rStart st = .ok st1 ∧ PoolExact cfg st1 ∧
          (st.recorded.length + (rangeRegions (if rStart > current then [(current, rStart)] else [])).length ≤
              cfg.maxUninitRegions →
            st1.recorded = st.recorded ++ rangeRegions (if rStart > current then [(current, rStart)] else [])) := by
        rw [Pmm.processGap]
        split
        · rw [rangeRegions_singleton]
          exact h.processRange current rStart
        · exact ⟨st, rfl, h, fun _ => (append_nil _).symm⟩
      obtain ⟨st1, hrun1, hexact1, hrec1⟩ := hgap
      obtain ⟨current', st', hrun, hexact, before, hcut, hrec⟩ := ih hexact1 (alignPage (max current rEnd))
      rw [hrun1]
      refine ⟨current', st', hrun, hexact,
        rangeRegions (if rStart > current then [(current, rStart)] else []) ++ before, ?_, fun hle => ?_⟩
      · rw [rangeRegions_append, hcut, append_assoc]
      · rw [length_append] at hle
        have hfirst := hrec1 (by omega)
        have hrest := hrec (by rw [hfirst, length_append]; omega)
        rw [hrest, hfirst, append_assoc]
    · exact ih h current

theorem PoolExact.processEntry (h : PoolExact cfg st) (e : MemmapEntry) :
    ∃ st', Pmm.processEntry cfg reserved e st = .ok st' ∧ PoolExact cfg st' ∧
      (st.recorded.length + (entryRegions reserved e).length ≤ cfg.maxUninitRegions →
        st'.recorded = st.recorded ++ entryRegions reserved e) := by
  obtain ⟨current', st1, hrun1, hexact1, before, hcut, hrec1⟩ :=
    h.aroundReserved reserved (e.base + e.len) e.base
  unfold Pmm.processEntry entryRegions
  simp only [hcut, hrun1, bind, Except.bind]
  split
  · obtain ⟨st', hrun, hexact, hrec⟩ := hexact1.processRange current' (e.base + e.len)
    refine ⟨st', hrun, hexact, fun hle => ?_⟩
    rw [rangeRegions_singleton, length_append] at hle
    have hfirst := hrec1 (by omega)
    have hrest := hrec (by rw [hfirst, length_append]; omega)
    rw [hrest, hfirst, rangeRegions_singleton, append_assoc]
  · refine ⟨st1, rfl, hexact1, fun hle => ?_⟩
    rw [rangeRegions, flatMap_nil, append_nil] at hle ⊢
    exact hrec1 hle

variable {e : MemmapEntry}

theorem mapRegions_cons_of_pos (h : e.usable = true) :
    mapRegions reserved (e :: entries) = entryRegions reserved e ++ mapRegions reserved entries := by
  rw [mapRegions, filter_cons_of_pos h, flatMap_cons, mapRegions]

theorem mapRegions_cons_of_neg (h : ¬ e.usable = true) :
    mapRegions reserved (e :: entries) = mapRegions reserved entries := by
  rw [mapRegions, filter_cons_of_neg h, mapRegions]

/-- The loop over the memory map never fails, and drops nothing if there is room for all regions. -/
theorem PoolExact.processEntries (h : PoolExact cfg st) (entries : List MemmapEntry) :
    ∃ st', Pmm.processEntries cfg reserved entries st = .ok st' ∧
      (st.recorded.length + (mapRegions reserved entries).length ≤ cfg.maxUninitRegions →
        st'.recorded = st.recorded ++ mapRegions reserved entries) := by
  induction entries generalizing st with
  | nil => exact ⟨st, rfl, fun _ => (append_nil _).symm⟩
  | cons e entries ih =>
    rw [Pmm.processEntries]
    by_cases husable : e.usable = true
    · obtain ⟨st1, hrun1, hexact1, hrec1⟩ := h.processEntry reserved e
      obtain ⟨st', hrun, hrec⟩ := ih hexact1
      rw [if_pos husable, hrun1, mapRegions_cons_of_pos reserved husable]
      refine ⟨st', hrun, fun hle => ?_⟩
      rw [length_append] at hle
      have hfirst := hrec1 (by omega)
      have hrest := hrec (by rw [hfirst, length_append]; omega)
      rw [hrest, hfirst, append_assoc]
    · rw [if_neg husable, mapRegions_cons_of_neg reserved husable]
      exact ih h

end Loop

/-! ## The number of regions -/

variable {r : Nat × Nat}

section Count

/-- The range shares an address with the entry. -/
def Cuts (r : Nat × Nat) (e : MemmapEntry) : Prop := e.base < r.2 ∧ r.1 < e.base + e.len

instance (r : Nat × Nat) (e : MemmapEntry) : Decidable (Cuts r e) := inferInstanceAs (Decidable (_ ∧ _))

/-- Every range that cuts the entry adds at most one piece. -/
theorem length_cutRanges_le (e : MemmapEntry) (reserved : List (Nat × Nat)) (h : e.base ≤ current) :
    (cutRanges (e.base + e.len) reserved current).length ≤ reserved.countP (Cuts · e) + 1 := by
  induction reserved generalizing current with
  | nil =>
    rw [cutRanges]
    split <;> simp
  | cons range reserved ih =>
    obtain ⟨rStart, rEnd⟩ := range
    rw [cutRanges, countP_cons]
    split
    · next hmeet =>
      have hcuts : decide (Cuts (rStart, rEnd) e) = true := decide_eq_true ⟨h.trans_lt hmeet.1, hmeet.2⟩
      have hrest := ih (h.trans ((Nat.le_max_left current rEnd).trans (le_alignPage _)))
      have hgap : (if rStart > current then [(current, rStart)] else []).length ≤ 1 := by split <;> simp
      rw [if_pos hcuts, length_append]
      omega
    · exact (ih h).trans (by omega)

theorem length_rangeRegions_le (ranges : List (Nat × Nat)) : (rangeRegions ranges).length ≤ ranges.length := by
  induction ranges with
  | nil => exact Nat.le_refl _
  | cons r ranges ih =>
    have hone : (rangeRegion r.1 r.2).length ≤ 1 := by
      unfold rangeRegion
      split <;> simp
    rw [rangeRegions, flatMap_cons, length_append, length_cons]
    rw [rangeRegions] at ih
    omega

variable {α : Type}

/-- At most one of several things has a property, if no two of them do. -/
theorem countP_le_one {l : List α} (h : l.Pairwise fun a b => ¬ (P a = true ∧ P b = true)) :
    l.countP P ≤ 1 := by
  induction l with
  | nil => exact Nat.zero_le _
  | cons a l ih =>
    obtain ⟨ha, hl⟩ := pairwise_cons.mp h
    rw [countP_cons]
    split
    · next hpa =>
      have hnone : l.countP P = 0 := countP_eq_zero.mpr fun b hb hpb => ha b hb ⟨hpa, hpb⟩
      omega
    · exact ih hl

theorem countP_eq_sum (P : α → Bool) (l : List α) :
    l.countP P = (l.map fun a => if P a = true then 1 else 0).sum := by
  induction l with
  | nil => rfl
  | cons a l ih => rw [countP_cons, map_cons, sum_cons, ih, Nat.add_comm]

/-- A range in a usable entry cuts no other one. -/
theorem countP_cuts_le_one (hmap : MemmapOk mmap)
    (hin : ∃ e ∈ mmap, e.usable ∧ e.base ≤ r.1 ∧ r.2 ≤ e.base + e.len) :
    (mmap.filter (·.usable)).countP (fun e => decide (Cuts r e)) ≤ 1 := by
  obtain ⟨e0, he0, hu0, hlo, hhi⟩ := hin
  refine countP_le_one (hmap.apart.imp_of_mem fun {e e'} he he' hapart hboth => ?_)
  simp only [decide_eq_true_eq] at hboth
  have hcut : ∀ e ∈ mmap.filter (·.usable), Cuts r e → e.base = e0.base := by
    intro e he hcuts
    obtain ⟨he, hu⟩ := mem_filter.mp he
    by_contra hne
    have hapart := apart_of_base_ne hmap he he0 hu hu0 hne
    unfold MemmapEntry.Apart at hapart
    unfold Cuts at hcuts
    omega
  have hbase := hcut e he hboth.1
  have hbase' := hcut e' he' hboth.2
  have hcuts := hboth.1
  have hcuts' := hboth.2
  unfold MemmapEntry.Apart at hapart
  unfold Cuts at hcuts hcuts'
  omega

/-- There is at most one region for every usable entry and one more for every table. -/
theorem length_mapRegions_le (hmap : MemmapOk mmap)
    (hin : ∀ r ∈ reserved, ∃ e ∈ mmap, e.usable ∧ e.base ≤ r.1 ∧ r.2 ≤ e.base + e.len) :
    (mapRegions reserved mmap).length ≤ (mmap.filter (·.usable)).length + reserved.length := by
  have hentry : ∀ e, (entryRegions reserved e).length ≤ reserved.countP (fun r => decide (Cuts r e)) + 1 :=
    fun e => (length_rangeRegions_le _).trans (length_cutRanges_le e reserved (Nat.le_refl _))
  calc (mapRegions reserved mmap).length
      = ((mmap.filter (·.usable)).map fun e => (entryRegions reserved e).length).sum := length_flatMap
    _ ≤ ((mmap.filter (·.usable)).map fun e => reserved.countP (fun r => decide (Cuts r e)) + 1).sum :=
        sum_le_sum fun e _ => hentry e
    _ = ((mmap.filter (·.usable)).map fun e => (reserved.map fun r =>
          if decide (Cuts r e) = true then 1 else 0).sum).sum + (mmap.filter (·.usable)).length := by
        rw [sum_map_add, sum_map_one fun _ _ => rfl]
        simp [countP_eq_sum]
    _ = (reserved.map fun r => (mmap.filter (·.usable)).countP fun e => decide (Cuts r e)).sum +
          (mmap.filter (·.usable)).length := by
        rw [sum_swap]
        simp [countP_eq_sum]
    _ ≤ (reserved.map fun _ => 1).sum + (mmap.filter (·.usable)).length :=
        Nat.add_le_add_right (sum_le_sum fun r hr => countP_cuts_le_one hmap (hin r hr)) _
    _ = (mmap.filter (·.usable)).length + reserved.length := by
        rw [sum_map_one fun _ _ => rfl, Nat.add_comm]

end Count

/-! ## The frames of the regions -/

theorem mem_rangeRegion (hstart : 4096 ∣ start) :
    (∃ r ∈ rangeRegion start stop, r.startPfn ≤ x ∧ x < r.endPfn) ↔
      start ≤ x * 4096 ∧ (x + 1) * 4096 ≤ stop := by
  unfold rangeRegion
  rw [alignPage_of_dvd hstart]
  split
  · simp only [mem_singleton, exists_eq_left]
    omega
  · next hempty =>
    simp only [not_mem_nil, false_and, exists_false, false_iff]
    omega

/-- The frames of what is left of an entry are those that share no address with the ranges, if these
start on pages and come one after the other. -/
theorem mem_cutRanges (hsorted : reserved.Pairwise fun r r' => r.2 ≤ r'.1)
    (haligned : ∀ r ∈ reserved, 4096 ∣ r.1) (hle : ∀ r ∈ reserved, r.1 ≤ r.2)
    (hcurrent : 4096 ∣ current) :
    (∃ r ∈ rangeRegions (cutRanges regionEnd reserved current), r.startPfn ≤ x ∧ x < r.endPfn) ↔
      (current ≤ x * 4096 ∧ (x + 1) * 4096 ≤ regionEnd) ∧ ∀ r ∈ reserved, ¬ Overlaps x r := by
  induction reserved generalizing current with
  | nil =>
    rw [cutRanges]
    split
    · rw [rangeRegions_singleton, mem_rangeRegion hcurrent]
      simp
    · simp only [rangeRegions, flatMap_nil, not_mem_nil, false_and, exists_false, false_implies,
        implies_true, and_true, false_iff]
      omega
  | cons range reserved ih =>
    obtain ⟨rStart, rEnd⟩ := range
    obtain ⟨hfirst, hsorted⟩ := pairwise_cons.mp hsorted
    have hrange : rStart ≤ rEnd := hle _ mem_cons_self
    have hrStart : 4096 ∣ rStart := haligned _ mem_cons_self
    have haligned : ∀ r ∈ reserved, 4096 ∣ r.1 := fun r hr => haligned r (mem_cons_of_mem _ hr)
    have hle : ∀ r ∈ reserved, r.1 ≤ r.2 := fun r hr => hle r (mem_cons_of_mem _ hr)
    rw [cutRanges, forall_mem_cons]
    split
    · next hmeet =>
      have hal := alignPage_dvd (max current rEnd)
      have hlo := le_alignPage (max current rEnd)
      have hhi := alignPage_lt (max current rEnd)
      have hgap : (∃ r ∈ rangeRegions (if rStart > current then [(current, rStart)] else []),
          r.startPfn ≤ x ∧ x < r.endPfn) ↔ current ≤ x * 4096 ∧ (x + 1) * 4096 ≤ rStart := by
        split
        · rw [rangeRegions_singleton, mem_rangeRegion hcurrent]
        · simp only [rangeRegions, flatMap_nil, not_mem_nil, false_and, exists_false, false_iff]
          omega
      simp only [rangeRegions_append, mem_append, or_and_right, exists_or]
      rw [hgap, ih hsorted haligned hle hal]
      constructor
      · rintro (⟨hx, hx'⟩ | ⟨⟨hx, hx'⟩, hrest⟩)
        · refine ⟨⟨hx, by omega⟩, fun hover => ?_, fun r hr hover => ?_⟩
          · unfold Overlaps at hover
            omega
          · -- The ranges that follow lie behind the gap.
            have := hfirst r hr
            unfold Overlaps at hover
            omega
        · refine ⟨⟨by omega, hx'⟩, fun hover => ?_, hrest⟩
          unfold Overlaps at hover
          omega
      · rintro ⟨⟨hx, hx'⟩, hout, hrest⟩
        unfold Overlaps at hout
        by_cases hbefore : (x + 1) * 4096 ≤ rStart
        · exact .inl ⟨hx, hbefore⟩
        · exact .inr ⟨⟨by omega, hx'⟩, hrest⟩
    · next hapart =>
      rw [ih hsorted haligned hle hcurrent]
      refine ⟨fun ⟨hx, hrest⟩ => ⟨hx, fun hover => ?_, hrest⟩, fun ⟨hx, _, hrest⟩ => ⟨hx, hrest⟩⟩
      unfold Overlaps at hover
      omega

/-! ## The call -/

section Call

variable {s : Storage}

/-- A map in which a place was found for the tables has usable memory, so no table is empty. -/
theorem totalFrames_pos (h : findMetadataStorage mmap sizes = .ok s) :
    0 < (initConfig mmap).totalFrames := by
  have hhigh : ∃ e ∈ mmap, e.usable ∧ highEntry e := by
    rcases findMetadataStorage_cases h with ⟨_, _, hbest, -⟩ | ⟨-, _, _, _, _, _, hbest, -⟩
    all_goals
      obtain ⟨e, he, hu, hhigh, -⟩ := bestEntry_some hbest
      exact ⟨e, he, hu, hhigh⟩
  obtain ⟨e, he, hu, hhigh⟩ := hhigh
  have hbase : MIN_METADATA_BASE ≤ e.base := of_decide_eq_true hhigh
  have hmax := le_maxPhysAddr he hu
  unfold MIN_METADATA_BASE at hbase
  simp only [initConfig]
  omega

theorem mem_reservedRanges : r ∈ reservedRanges sizes s ↔ r ∈ s.ranges sizes := mem_insertionSort ..

/-- The tables, sorted by their starts, come one after the other. -/
theorem reservedRanges_sorted (hplaced : s.Placed mmap sizes)
    (hpos : ∀ r ∈ s.ranges sizes, r.1 < r.2) :
    (reservedRanges sizes s).Pairwise fun r r' => r.2 ≤ r'.1 := by
  have hperm : (reservedRanges sizes s).Perm (s.ranges sizes) := perm_insertionSort ..
  have hapart : (reservedRanges sizes s).Pairwise fun r r' => r.2 ≤ r'.1 ∨ r'.2 ≤ r.1 :=
    (hperm.pairwise_iff fun hxy => hxy.symm).mpr hplaced.apart
  have hsorted : (reservedRanges sizes s).Pairwise fun r r' => r.1 ≤ r'.1 := pairwise_insertionSort ..
  refine (hapart.and hsorted).imp_of_mem fun {r r'} hr hr' ⟨hor, hle⟩ => ?_
  have hpos' := hpos r' (mem_reservedRanges.mp hr')
  omega

/-- The regions that a map gives rise to hold the frames of its usable entries outside the tables. -/
theorem mem_mapRegions (hmap : MemmapOk mmap) (hplaced : s.Placed mmap sizes)
    (hpos : ∀ r ∈ s.ranges sizes, r.1 < r.2) (x : Nat) :
    (∃ r ∈ mapRegions (reservedRanges sizes s) mmap, r.startPfn ≤ x ∧ x < r.endPfn) ↔
      (∃ e ∈ mmap, e.usable ∧ HasFrame e x) ∧ ∀ r ∈ s.ranges sizes, ¬ Overlaps x r := by
  have hentry : ∀ e ∈ mmap, e.usable → ((∃ r ∈ entryRegions (reservedRanges sizes s) e,
      r.startPfn ≤ x ∧ x < r.endPfn) ↔ HasFrame e x ∧ ∀ r ∈ s.ranges sizes, ¬ Overlaps x r) := by
    intro e he hu
    rw [entryRegions, mem_cutRanges (reservedRanges_sorted hplaced hpos)
      (fun r hr => hplaced.aligned r (mem_reservedRanges.mp hr))
      (fun r hr => (hpos r (mem_reservedRanges.mp hr)).le) (hmap.aligned e he hu).1]
    simp [mem_reservedRanges, HasFrame]
  simp only [mapRegions, mem_flatMap, mem_filter]
  constructor
  · rintro ⟨r, ⟨e, ⟨he, hu⟩, hr⟩, hx⟩
    obtain ⟨hframe, hout⟩ := (hentry e he hu).mp ⟨r, hr, hx⟩
    exact ⟨⟨e, he, hu, hframe⟩, hout⟩
  · rintro ⟨⟨e, he, hu, hframe⟩, hout⟩
    obtain ⟨r, hr, hx⟩ := (hentry e he hu).mpr ⟨hframe, hout⟩
    exact ⟨r, ⟨e, ⟨he, hu⟩, hr⟩, hx⟩

/-- Given a place for the tables, `init` records the usable memory outside them exactly, unless it
rejects the place. -/
theorem recordRegions_eq (hmap : MemmapOk mmap)
    (h : findMetadataStorage mmap (tableSizes (initConfig mmap)) = .ok s) (hzero : s.mapPaddr ≠ 0) :
    ∃ st, recordRegions mmap = .ok st ∧
      st.recorded = mapRegions (reservedRanges (tableSizes (initConfig mmap)) s) mmap := by
  obtain ⟨hplaced, -⟩ := findMetadataStorage_placed hmap h
  have hempty : PoolExact (initConfig mmap) ⟨fun _ => false, 0, []⟩ := by
    rw [PoolExact, eq_comm, countP_eq_zero]
    exact fun _ _ => nofun
  obtain ⟨st, hrun, hrec⟩ :=
    hempty.processEntries (reservedRanges (tableSizes (initConfig mmap)) s) mmap
  refine ⟨st, ?_, ?_⟩
  · unfold recordRegions
    simp only [h, bind, Except.bind]
    rw [if_neg hzero]
    exact hrun
  · have hle := length_mapRegions_le hmap fun r hr => hplaced.inside r (mem_reservedRanges.mp hr)
    have hfour : (reservedRanges (tableSizes (initConfig mmap)) s).length = 4 :=
      (perm_insertionSort ..).length_eq
    have hcap : (initConfig mmap).maxUninitRegions = (mmap.filter (·.usable)).length * 2 + 16 := rfl
    rw [hfour] at hle
    exact hrec (by simp only [length_nil]; omega)

end Call

/-- Sixteen pages at address zero, five at 1 MiB, and three more that would do for the tables. -/
def zeroMap : List MemmapEntry :=
  [⟨0, 16 * 4096, true, by decide⟩, ⟨256 * 4096, 5 * 4096, true, by decide⟩,
    ⟨262 * 4096, 3 * 4096, true, by decide⟩]

theorem zeroMap_ok : MemmapOk zeroMap where
  aligned := by simp [zeroMap, MemmapEntry.PageAligned]
  apart := by simp [zeroMap, MemmapEntry.Apart]

theorem zeroMap_storage : findMetadataStorage zeroMap (tableSizes (initConfig zeroMap)) =
    .ok ⟨0, 0x1000, 0x100000, 0x2000⟩ := by decide +kernel

end Pmm

end BoruixKernel
