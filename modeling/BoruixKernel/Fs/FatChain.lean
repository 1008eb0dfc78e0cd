import BoruixKernel.Fs.FatVolume
import BoruixKernel.Lib.IdealDisk

/-!
# Chains of clusters

What the programs of `FatVolume` do on an ideal disk, in terms of the table as a function
from clusters to entries and of the bytes of the clusters.  The geometry of the volume
keeps the copies of the table, and the clusters, apart.
-/

namespace BoruixKernel

open DeviceProg List Outcome

namespace FatFsState

variable {st : FatFsState} {d d' : Disk} {c v : Nat}

/-- A volume whose parts do not overlap, with a table that covers all clusters. -/
structure Geometry (st : FatFsState) : Prop where
  clusterSize : 0 < st.clusterSize
  copies : 0 < st.bpb.numFats
  covers : 4 * (st.clusterCount + 2) ≤ st.fatSize
  below : st.fatOffset + st.bpb.numFats * st.fatSize ≤ st.dataOffset
  /-- The numbers of clusters are none of those that end a chain. -/
  numbers : st.clusterCount + 2 ≤ 0x0FFFFFF7

/-- The part of it that the table depends on. -/
structure Layout (st : FatFsState) : Prop where
  copies : 0 < st.bpb.numFats
  covers : 4 * (st.clusterCount + 2) ≤ st.fatSize
  below : st.fatOffset + st.bpb.numFats * st.fatSize ≤ st.dataOffset

theorem Geometry.layout (hg : st.Geometry) : st.Layout := ⟨hg.copies, hg.covers, hg.below⟩

def IsCluster (st : FatFsState) (c : Nat) : Prop := 2 ≤ c ∧ c < st.clusterCount + 2

/-- The bytes of the entry of a cluster in a copy of the table. -/
def entryBytes (st : FatFsState) (d : Disk) (copy c : Nat) : List UInt8 :=
  d.get (st.fatOffset + copy * st.fatSize + c * 4) 4

/-- The entry of a cluster, which is read from the first copy. -/
def fat (st : FatFsState) (d : Disk) (c : Nat) : Nat :=
  Bytes.toNat (st.entryBytes d 0 c) % 2 ^ 28

def base (st : FatFsState) (c : Nat) : Nat := st.dataOffset + (c - 2) * st.clusterSize

/-- The clusters with an entry in the table. -/
def InTable (st : FatFsState) (c : Nat) : Prop := c * 4 + 4 ≤ st.fatSize

theorem IsCluster.inTable (hc : st.IsCluster c) (hg : st.Layout) : st.InTable c := by
  have := hg.covers
  have := hc.2
  unfold InTable
  omega

theorem fatEntryOffset_eq (hc : st.InTable c) : st.fatEntryOffset c = some (st.fatOffset + c * 4) := by
  unfold InTable at hc
  refine if_neg ?_
  omega

theorem exec_readFatEntry (hc : st.InTable c) :
    exec (Disk.device VfsError) (st.readFatEntry c) d = some (.ok (st.fat d c), d) := by
  simp [readFatEntry, readInto, fatEntryOffset_eq hc, exec_bind, exec_ofOption_some, andThen_ok, exec_readBytes, Disk.device, exec_pure, fat, entryBytes, Bytes.fill, Disk.length_get]

/-- The loop over the copies, on an ideal disk. -/
theorem exec_writeCopies (off : Nat) (bytes : List UInt8) (idxs : List Nat) :
    exec (Disk.device VfsError) (st.writeCopies off bytes idxs) d =
      some (.ok (), idxs.foldl (fun d idx => d.put (off + idx * st.fatSize) bytes) d) := by
  induction idxs generalizing d with
  | nil => rfl
  | cons idx idxs ih =>
    rw [writeCopies, exec_bind, exec_writeBytes]
    exact ih

variable (st) in
theorem copies_apart (h : k ≠ k') :
    k * st.fatSize + st.fatSize ≤ k' * st.fatSize ∨ k' * st.fatSize + st.fatSize ≤ k * st.fatSize := by
  rcases Nat.lt_or_gt_of_ne h with hlt | hlt
  · left
    rw [← Nat.succ_mul]
    exact Nat.mul_le_mul_right _ hlt
  · right
    rw [← Nat.succ_mul]
    exact Nat.mul_le_mul_right _ hlt

variable {c' off : Nat}

/-- What writing an entry to some copies does to the entries. -/
theorem entryBytes_foldl (hc : st.InTable c) (hlen : bytes.length = 4) (idxs : List Nat)
    (hc' : st.InTable c') :
    st.entryBytes (idxs.foldl (fun d idx => d.put (st.fatOffset + c * 4 + idx * st.fatSize) bytes) d)
        k c' =
      if c' = c ∧ k ∈ idxs then bytes else st.entryBytes d k c' := by
  unfold InTable at hc hc'
  induction idxs generalizing d with
  | nil => simp
  | cons idx idxs ih =>
    rw [foldl_cons, ih]
    by_cases hrest : c' = c ∧ k ∈ idxs
    · rw [if_pos hrest, if_pos ⟨hrest.1, mem_cons_of_mem _ hrest.2⟩]
    · rw [if_neg hrest]
      by_cases hhere : c' = c ∧ k = idx
      · obtain ⟨rfl, rfl⟩ := hhere
        rw [if_pos ⟨rfl, mem_cons_self⟩, entryBytes, Nat.add_right_comm, ← hlen]
        exact Disk.get_put _ _ _
      · have hnot : ¬ (c' = c ∧ k ∈ idx :: idxs) := by
          rintro ⟨rfl, hk⟩
          rcases mem_cons.mp hk with rfl | hk
          · exact hhere ⟨rfl, rfl⟩
          · exact hrest ⟨rfl, hk⟩
        rw [if_neg hnot, entryBytes, entryBytes]
        refine Disk.get_put_of_disjoint ?_
        rw [hlen]
        by_cases hk : k = idx
        · subst hk
          have hne : c' ≠ c := fun heq => hhere ⟨heq, rfl⟩
          omega
        · have := copies_apart st hk
          omega

/-- An entry of the table has been set. -/
structure EntrySet (st : FatFsState) (d : Disk) (c v : Nat) (d' : Disk) : Prop where
  entries : ∀ k < st.bpb.numFats, ∀ c', st.InTable c' → st.entryBytes d' k c' =
    if c' = c then Bytes.ofNat 4 (v % 2 ^ 28) else st.entryBytes d k c'
  data : ∀ i, st.dataOffset ≤ i → d' i = d i

theorem exec_writeFatEntry_eq (hc : st.InTable c) (v : Nat) :
    exec (Disk.device VfsError) (st.writeFatEntry c v) d = some (.ok (),
      (List.range st.bpb.numFats).foldl (fun d idx =>
        d.put (st.fatOffset + c * 4 + idx * st.fatSize) (Bytes.ofNat 4 (v % 2 ^ 28))) d) := by
  simp [writeFatEntry, fatEntryOffset_eq hc, exec_bind, exec_ofOption_some, andThen_ok, exec_writeCopies]

theorem exec_writeFatEntry (hg : st.Layout) (hc : st.IsCluster c) (v : Nat) :
    ∃ d', exec (Disk.device VfsError) (st.writeFatEntry c v) d = some (.ok (), d') ∧
      EntrySet st d c v d' := by
  refine ⟨_, exec_writeFatEntry_eq (hc.inTable hg) v, ?_, ?_⟩
  · intro k hk c' hc'
    rw [entryBytes_foldl (hc.inTable hg) (Bytes.length_ofNat _ _) _ hc']
    simp [hk]
  · intro i hi
    have hrange : ∀ idx ∈ List.range st.bpb.numFats,
        st.fatOffset + c * 4 + idx * st.fatSize + 4 ≤ st.dataOffset := by
      intro idx hidx
      have hle : (idx + 1) * st.fatSize ≤ st.bpb.numFats * st.fatSize :=
        Nat.mul_le_mul_right _ (mem_range.mp hidx)
      have := hg.below
      have hin := hc.inTable hg
      unfold InTable at hin
      rw [Nat.succ_mul] at hle
      omega
    generalize List.range st.bpb.numFats = idxs at hrange ⊢
    induction idxs generalizing d with
    | nil => rfl
    | cons idx idxs ih =>
      rw [foldl_cons, ih fun j hj => hrange j (mem_cons_of_mem _ hj)]
      refine Disk.put_of_not_mem (.inr ?_)
      have := hrange idx mem_cons_self
      rw [Bytes.length_ofNat]
      omega

theorem EntrySet.fat (h : EntrySet st d c v d') (hg : st.Layout) (hc' : st.IsCluster c') :
    st.fat d' c' = if c' = c then v % 2 ^ 28 else st.fat d c' := by
  rw [FatFsState.fat, h.entries 0 hg.copies c' (hc'.inTable hg)]
  split
  · rw [Bytes.toNat_ofNat]
    omega
  · rfl

/-! ## Clusters -/

theorem base_apart (hc : st.IsCluster c) (hc' : st.IsCluster c') (h : c ≠ c') :
    st.base c + st.clusterSize ≤ st.base c' ∨ st.base c' + st.clusterSize ≤ st.base c := by
  have := hc.1
  have := hc'.1
  unfold base
  rcases Nat.lt_or_gt_of_ne h with hlt | hlt
  · left
    have hle : (c - 2 + 1) * st.clusterSize ≤ (c' - 2) * st.clusterSize :=
      Nat.mul_le_mul_right _ (by omega)
    rw [Nat.succ_mul] at hle
    omega
  · right
    have hle : (c' - 2 + 1) * st.clusterSize ≤ (c - 2) * st.clusterSize :=
      Nat.mul_le_mul_right _ (by omega)
    rw [Nat.succ_mul] at hle
    omega

variable (st) in
theorem dataOffset_le_base (c : Nat) : st.dataOffset ≤ st.base c := Nat.le_add_right _ _

/-- Writing in the clusters leaves the table. -/
theorem entryBytes_put_data (hg : st.Layout) (hoff : st.dataOffset ≤ off) (data : List UInt8)
    (hk : k < st.bpb.numFats) (hc : st.IsCluster c) :
    st.entryBytes (d.put off data) k c = st.entryBytes d k c := by
  refine Disk.get_put_of_disjoint (.inl ?_)
  have hle : (k + 1) * st.fatSize ≤ st.bpb.numFats * st.fatSize := Nat.mul_le_mul_right _ hk
  have := hg.below
  have := hg.covers
  have := hc.2
  rw [Nat.succ_mul] at hle
  omega

theorem fat_put_data (hg : st.Layout) (hoff : st.dataOffset ≤ off) (data : List UInt8)
    (hc : st.IsCluster c) : st.fat (d.put off data) c = st.fat d c := by
  rw [fat, fat, entryBytes_put_data hg hoff data hg.copies hc]

theorem clusterOffset_eq (hc : st.IsCluster c) : st.clusterOffset c = some (st.base c) :=
  if_neg (Nat.not_lt.mpr hc.1)

theorem exec_readCluster (hc : st.IsCluster c) : exec (Disk.device VfsError) (st.readCluster c) d =
      some (.ok (d.get (st.base c) st.clusterSize), d) := by
  simp [readCluster, clusterOffset_eq hc, exec_bind, exec_ofOption_some, andThen_ok, exec_readBytes, Disk.device, Disk.length_get, exec_pure]

theorem exec_writeCluster (hc : st.IsCluster c) (hlen : data.length = st.clusterSize) :
    exec (Disk.device VfsError) (st.writeCluster c data) d =
      some (.ok (), d.put (st.base c) data) := by
  simp [writeCluster, clusterOffset_eq hc, exec_bind, exec_ofOption_some, andThen_ok, exec_writeBytes, Disk.device, ← hlen, exec_pure]

/-- A free cluster has been taken: it ends a chain of its own, and is zero. -/
structure Taken (st : FatFsState) (d : Disk) (c : Nat) (d' : Disk) : Prop where
  cluster : st.IsCluster c
  free : st.fat d c = 0
  entries : ∀ k < st.bpb.numFats, ∀ c', st.IsCluster c' → st.entryBytes d' k c' =
    if c' = c then Bytes.ofNat 4 FatEoc else st.entryBytes d k c'
  zero : ∀ i < st.clusterSize, d' (st.base c + i) = 0
  data : ∀ i, st.dataOffset ≤ i → (i < st.base c ∨ st.base c + st.clusterSize ≤ i) → d' i = d i

theorem exec_allocateFrom (hg : st.Layout) (hle : 2 ≤ c) (hleft : c + left = st.clusterCount + 2) :
    (∃ c0 d', exec (Disk.device VfsError) (st.allocateFrom left c) d = some (.ok c0, d') ∧
        Taken st d c0 d') ∨
      exec (Disk.device VfsError) (st.allocateFrom left c) d = some (.error .NoDev, d) ∧
        ∀ c', c ≤ c' → c' < st.clusterCount + 2 → st.fat d c' ≠ 0 := by
  induction left generalizing c with
  | zero =>
    refine .inr ⟨rfl, fun c' hc hc' => ?_⟩
    omega
  | succ left ih =>
    have hc : st.IsCluster c := ⟨hle, by omega⟩
    rw [allocateFrom, exec_bind, exec_readFatEntry (hc.inTable hg), andThen_ok]
    by_cases hfree : st.fat d c = 0
    · left
      obtain ⟨d₁, hrun, hset⟩ := exec_writeFatEntry (d := d) hg hc FatEoc
      refine ⟨c, d₁.put (st.base c) (List.replicate st.clusterSize 0), ?_, hc, hfree, ?_, ?_, ?_⟩
      · rw [if_pos hfree, exec_bind, hrun, andThen_ok, exec_bind, zeroCluster,
          exec_writeCluster hc length_replicate, andThen_ok, exec_pure]
      · intro k hk c' hc'
        rw [entryBytes_put_data hg (dataOffset_le_base st c) _ hk hc', hset.entries k hk c' (hc'.inTable hg)]
        rfl
      · intro i hi
        rw [Disk.put_of_mem (by omega) (by rw [length_replicate]; omega)]
        simp [getD_eq_getElem?_getD, hi]
      · intro i hi hout
        rw [Disk.put_of_not_mem (by rwa [length_replicate]), hset.data i hi]
    · rw [if_neg hfree]
      rcases ih (c := c + 1) (by omega) (by omega) with h | ⟨hrun, hnone⟩
      · exact .inl h
      · refine .inr ⟨hrun, fun c' hc' hlt => ?_⟩
        rcases Nat.eq_or_lt_of_le hc' with rfl | hgt
        · exact hfree
        · exact hnone c' hgt hlt

/-- `allocate_cluster` finds a free cluster if there is one. -/
theorem exec_allocateCluster (hg : st.Layout) :
    (∃ c d', exec (Disk.device VfsError) st.allocateCluster d = some (.ok c, d') ∧
        Taken st d c d') ∨
      exec (Disk.device VfsError) st.allocateCluster d = some (.error .NoDev, d) ∧
        ∀ c, st.IsCluster c → st.fat d c ≠ 0 := by
  rcases exec_allocateFrom (d := d) hg (Nat.le_refl 2) (Nat.add_comm 2 _) with h | ⟨hrun, hnone⟩
  · exact .inl h
  · exact .inr ⟨hrun, fun c hc => hnone c hc.1 hc.2⟩

theorem Taken.fat (h : Taken st d c d') (hg : st.Layout) (hc' : st.IsCluster c') :
    st.fat d' c' = if c' = c then FatEoc else st.fat d c' := by
  rw [FatFsState.fat, h.entries 0 hg.copies c' hc']
  split
  · rw [Bytes.toNat_ofNat]
    rfl
  · rfl

/-! ## Chains -/

/-- The clusters of a chain, in order. -/
structure Chain (st : FatFsState) (d : Disk) (cs : List Nat) : Prop where
  clusters : ∀ c ∈ cs, st.IsCluster c
  links : cs.IsChain fun c c' => st.fat d c = c'
  last : ∀ c ∈ cs.getLast?, 0x0FFFFFF8 ≤ st.fat d c
  nodup : cs.Nodup

theorem Chain.nil : Chain st d [] := ⟨by simp, .nil, by simp, .nil⟩

/-- No cluster of a chain is free. -/
theorem Chain.fat_ne_zero (h : Chain st d cs) (hc : c ∈ cs) : st.fat d c ≠ 0 := by
  obtain ⟨pre, post, rfl⟩ := append_of_mem hc
  cases post with
  | nil =>
    have hlast := h.last c (by simp)
    omega
  | cons c' post =>
    have hlink : st.fat d c = c' := (isChain_cons_cons.mp (isChain_append.mp h.links).2.1).1
    have hc' := (h.clusters c' (by simp)).1
    omega

theorem Chain.next_some (h : Chain st d (pre ++ c :: c' :: post)) (hg : st.Geometry) :
    exec (Disk.device VfsError) (st.nextCluster c) d = some (.ok (some c'), d) := by
  have hlink : st.fat d c = c' := (isChain_cons_cons.mp (isChain_append.mp h.links).2.1).1
  have hc' := (h.clusters c' (by simp)).2
  have hnum := hg.numbers
  rw [nextCluster, exec_bind, exec_readFatEntry ((h.clusters c (by simp)).inTable hg.layout), andThen_ok,
    exec_pure, hlink, if_neg (by omega)]

theorem Chain.next_none (h : Chain st d (pre ++ [c])) (hg : st.Geometry) :
    exec (Disk.device VfsError) (st.nextCluster c) d = some (.ok none, d) := by
  rw [nextCluster, exec_bind, exec_readFatEntry ((h.clusters c (by simp)).inTable hg.layout), andThen_ok,
    exec_pure, if_pos (h.last c (by simp))]

/-- A chain depends on the entries of its clusters. -/
theorem Chain.congr (h : Chain st d cs) (hfat : ∀ c ∈ cs, st.fat d' c = st.fat d c) :
    Chain st d' cs := by
  refine ⟨h.clusters, ?_, fun c hc => ?_, h.nodup⟩
  · refine h.links.imp_of_mem_imp ?_
    intro a b ha _ hlink
    rw [hfat a ha, hlink]
  · rw [hfat c (mem_of_getLast? hc)]
    exact h.last c hc

def freeClusters (st : FatFsState) (d : Disk) : Finset Nat :=
  (Finset.Ico 2 (st.clusterCount + 2)).filter (st.fat d · = 0)

theorem mem_freeClusters : c ∈ st.freeClusters d ↔ st.IsCluster c ∧ st.fat d c = 0 := by
  rw [freeClusters, Finset.mem_filter, Finset.mem_Ico]
  rfl

theorem freeClusters_congr (h : ∀ c, st.IsCluster c → st.fat d' c = st.fat d c) :
    st.freeClusters d' = st.freeClusters d := by
  ext c
  rw [mem_freeClusters, mem_freeClusters]
  exact and_congr_right fun hc => by rw [h c hc]

/-! ## Making a chain longer -/

variable {cs cs' : List Nat}

/-- A chain has grown by clusters that were free and are zero now.  All else is as it was. -/
structure Grown (st : FatFsState) (d : Disk) (cs : List Nat) (d' : Disk) (cs' : List Nat) : Prop where
  chain : Chain st d' cs'
  more : cs <+: cs'
  fresh : ∀ c ∈ cs', c ∉ cs → st.fat d c = 0
  others : ∀ c, st.IsCluster c → c ∉ cs' → st.fat d' c = st.fat d c
  zero : ∀ c ∈ cs', c ∉ cs → ∀ i < st.clusterSize, d' (st.base c + i) = 0
  data : ∀ i, st.dataOffset ≤ i →
    (∀ c ∈ cs', c ∉ cs → i < st.base c ∨ st.base c + st.clusterSize ≤ i) → d' i = d i
  count : (st.freeClusters d').card + cs'.length = (st.freeClusters d).card + cs.length

theorem Grown.refl (h : Chain st d cs) : Grown st d cs d cs where
  chain := h
  more := prefix_rfl
  fresh _ hc hnot := absurd hc hnot
  others _ _ _ := rfl
  zero _ hc hnot := absurd hc hnot
  data _ _ _ := rfl
  count := rfl

/-- Clusters that were not free keep their bytes. -/
theorem Grown.bytes (h : Grown st d cs d' cs') (hc : st.IsCluster c) (hold : c ∈ cs ∨ c ∉ cs')
    (hi : i < st.clusterSize) : d' (st.base c + i) = d (st.base c + i) := by
  have hbase := dataOffset_le_base st c
  refine h.data _ (by omega) fun x hx hnew => ?_
  have hne : c ≠ x := by
    rintro rfl
    exact hold.elim hnew fun hnot => hnot hx
  have hapart := base_apart hc (h.chain.clusters x hx) hne
  omega

theorem Grown.trans (h : Grown st d cs d' cs')
    (h' : Grown st d' cs' d2 cs2) : Grown st d cs d2 cs2 where
  chain := h'.chain
  more := h.more.trans h'.more
  fresh c hc hnot := by
    by_cases hmid : c ∈ cs'
    · exact h.fresh c hmid hnot
    · rw [← h.others c (h'.chain.clusters c hc) hmid]
      exact h'.fresh c hc hmid
  others c hc hnot := by
    rw [h'.others c hc hnot]
    exact h.others c hc fun hmem => hnot (h'.more.subset hmem)
  zero c hc hnot i hi := by
    by_cases hmid : c ∈ cs'
    · rw [h'.bytes (h.chain.clusters c hmid) (.inl hmid) hi]
      exact h.zero c hmid hnot i hi
    · exact h'.zero c hc hmid i hi
  data i hi hout := by
    rw [h'.data i hi fun c hc hnot => hout c hc fun hmem => hnot (h.more.subset hmem)]
    exact h.data i hi fun c hc hnot => hout c (h'.more.subset hc) hnot
  count := by rw [h'.count, h.count]

theorem card_freeClusters_of_taken (hnew : c ∈ st.freeClusters d)
    (hfat : ∀ x, st.IsCluster x → (st.fat d' x = 0 ↔ x ≠ c ∧ st.fat d x = 0)) :
    (st.freeClusters d').card + 1 = (st.freeClusters d).card := by
  have herase : st.freeClusters d' = (st.freeClusters d).erase c := by
    ext x
    rw [Finset.mem_erase, mem_freeClusters, mem_freeClusters]
    constructor
    · rintro ⟨hx, hzero⟩
      obtain ⟨hne, hold⟩ := (hfat x hx).mp hzero
      exact ⟨hne, hx, hold⟩
    · rintro ⟨hne, hx, hold⟩
      exact ⟨hx, (hfat x hx).mpr ⟨hne, hold⟩⟩
  rw [herase, Finset.card_erase_of_mem hnew]
  have hpos := Finset.card_pos.mpr ⟨c, hnew⟩
  omega

/-- A chain with one more cluster, which its last one leads to. -/
theorem Taken.appended (hnew : Taken st d c d₁) (h : Chain st d cs)
    (hfat : ∀ x, st.IsCluster x → st.fat d' x =
      if x = c then FatEoc else if cs.getLast? = some x then c else st.fat d x)
    (hdata : ∀ i, st.dataOffset ≤ i → d' i = d₁ i) : Grown st d cs d' (cs ++ [c]) := by
  have hnot : c ∉ cs := fun hmem => h.fat_ne_zero hmem hnew.free
  have hmem : ∀ x, x ∈ cs ++ [c] ↔ x ∈ cs ∨ x = c := fun x => by simp
  have hfresh : ∀ x ∈ cs ++ [c], x ∉ cs → x = c := fun x hx hold => ((hmem x).mp hx).resolve_left hold
  refine ⟨⟨?_, ?_, ?_, ?_⟩, prefix_append .., ?_, ?_, ?_, ?_, ?_⟩
  · intro x hx
    rcases (hmem x).mp hx with hx | rfl
    · exact h.clusters x hx
    · exact hnew.cluster
  · -- The links inside the old chain stay; its last cluster leads to the new one.
    rcases cs.eq_nil_or_concat' with rfl | ⟨pre, l, rfl⟩
    · exact .singleton c
    have hold : ∀ x ∈ pre ++ [l], st.fat d' x = if l = x then c else st.fat d x := by
      intro x hx
      have hne : x ≠ c := fun heq => hnot (heq ▸ hx)
      simp [hfat x (h.clusters x hx), hne]
    have hpre : ∀ x ∈ pre, st.fat d' x = st.fat d x := by
      intro x hx
      rw [hold x (mem_append_left _ hx), if_neg]
      rintro rfl
      exact (nodup_append.mp h.nodup).2.2 l hx l (mem_singleton.mpr rfl) rfl
    obtain ⟨hlinks, -, hlast⟩ := isChain_append.mp h.links
    rw [append_assoc]
    refine isChain_append.mpr ⟨?_, isChain_pair.mpr ?_, fun x hx y hy => ?_⟩
    · exact hlinks.imp_of_mem_imp fun x y hx _ hlink => (hpre x hx).trans hlink
    · rw [hold l (by simp), if_pos rfl]
    · rw [hpre x (mem_of_getLast? hx)]
      exact hlast x hx y hy
  · intro x hx
    obtain rfl : c = x := by simpa using hx
    rw [hfat c hnew.cluster, if_pos rfl]
    decide
  · refine nodup_append.mpr ⟨h.nodup, nodup_singleton _, fun x hx y hy => ?_⟩
    rintro rfl
    exact hnot (mem_singleton.mp hy ▸ hx)
  · intro x hx hold
    rw [hfresh x hx hold]
    exact hnew.free
  · intro x hx hout
    rw [hmem, not_or] at hout
    rw [hfat x hx, if_neg hout.2, if_neg fun hlast => hout.1 (mem_of_getLast? hlast)]
  · intro x hx hold i hi
    obtain rfl := hfresh x hx hold
    have := dataOffset_le_base st x
    rw [hdata _ (by omega), hnew.zero i hi]
  · intro i hi hout
    rw [hdata i hi]
    exact hnew.data i hi (hout c ((hmem c).mpr (.inr rfl)) hnot)
  · have hcard : (st.freeClusters d').card + 1 = (st.freeClusters d).card := by
      refine card_freeClusters_of_taken (mem_freeClusters.mpr ⟨hnew.cluster, hnew.free⟩) fun x hx => ?_
      rw [hfat x hx]
      by_cases hxc : x = c
      · simp [hxc, FatEoc]
      by_cases hlast : cs.getLast? = some x
      · have hc := hnew.cluster.1
        simp [hxc, hlast, h.fat_ne_zero (mem_of_getLast? hlast), show c ≠ 0 by omega]
      · simp [hxc, hlast]
    rw [length_append, length_singleton]
    omega

/-- One more cluster at the end of a chain. -/
theorem exec_link (hg : st.Geometry) (h : Chain st d (pre ++ [c])) (hnew : Taken st d new d₁) :
    ∃ d2 d3, exec (Disk.device VfsError) (st.writeFatEntry c new) d₁ = some (.ok (), d2) ∧
      exec (Disk.device VfsError) (st.writeFatEntry new FatEoc) d2 = some (.ok (), d3) ∧
      Grown st d (pre ++ [c]) d3 (pre ++ [c] ++ [new]) := by
  obtain ⟨d2, hrun2, hset2⟩ := exec_writeFatEntry (d := d₁) hg.layout (h.clusters c (by simp)) new
  obtain ⟨d3, hrun3, hset3⟩ := exec_writeFatEntry (d := d2) hg.layout hnew.cluster FatEoc
  have hlt : new < 2 ^ 28 := by
    have := hg.numbers
    have := hnew.cluster.2
    omega
  refine ⟨d2, d3, hrun2, hrun3, hnew.appended h (fun x hx => ?_) fun i hi =>
    (hset3.data i hi).trans (hset2.data i hi)⟩
  rw [hset3.fat hg.layout hx, hset2.fat hg.layout hx, hnew.fat hg.layout hx, Nat.mod_eq_of_lt hlt]
  by_cases hxn : x = new
  · simp [hxn, FatEoc]
  · simp [hxn, eq_comm]

/-- `ensure_cluster_for_index` from a cluster of the chain on. -/
theorem exec_extendChain (hg : st.Geometry) (steps : Nat) (pre post : List Nat)
    (h : Chain st d (pre ++ c :: post)) (hfree : steps ≤ post.length + (st.freeClusters d).card) :
    ∃ c' d' cs', exec (Disk.device VfsError) (st.extendChain steps c) d = some (.ok c', d') ∧
      Grown st d (pre ++ c :: post) d' cs' ∧ cs'[pre.length + steps]? = some c' ∧
      cs'.length = max (pre.length + 1 + post.length) (pre.length + steps + 1) := by
  induction steps generalizing pre c post d with
  | zero =>
    refine ⟨c, d, pre ++ c :: post, rfl, Grown.refl h, by simp, ?_⟩
    simp only [length_append, length_cons]
    omega
  | succ steps ih =>
    cases post with
    | cons c1 post =>
      have hlist : pre ++ c :: c1 :: post = (pre ++ [c]) ++ c1 :: post := by simp
      obtain ⟨c', d', cs', hrun, hgrown, hget, hlen⟩ := ih (pre ++ [c]) post (hlist ▸ h) (by
        simp only [length_cons] at hfree
        omega)
      refine ⟨c', d', cs', ?_, hlist ▸ hgrown, ?_, ?_⟩
      · rw [extendChain, exec_bind, h.next_some hg, andThen_ok]
        exact hrun
      · rw [← hget]
        simp only [length_append, length_singleton]
        congr 1
        omega
      · rw [hlen]
        simp only [length_append, length_cons, length_nil]
        omega
    | nil =>
      -- The end of the chain: one cluster is taken and linked.
      rcases exec_allocateCluster (d := d) hg.layout with ⟨new, d₁, halloc, htaken⟩ | ⟨-, hnone⟩
      · obtain ⟨d2, d3, hrun2, hrun3, hlink⟩ := exec_link hg h htaken
        have hcount := hlink.count
        simp only [length_append, length_cons, length_nil] at hcount hfree
        obtain ⟨c', d', cs', hrun, hgrown, hget, hlen⟩ := ih (pre ++ [c]) [] hlink.chain (by
          simp only [length_nil]
          omega)
        refine ⟨c', d', cs', ?_, hlink.trans hgrown, ?_, ?_⟩
        · rw [extendChain, exec_bind, h.next_none hg, andThen_ok]
          simp only [exec_bind, halloc, hrun2, hrun3, andThen_ok]
          exact hrun
        · rw [← hget]
          simp only [length_append, length_singleton]
          congr 1
          omega
        · rw [hlen]
          simp only [length_append, length_cons, length_nil]
          omega
      · simp only [length_nil, Nat.zero_add] at hfree
        obtain ⟨x, hx⟩ := Finset.card_pos.mp (Nat.lt_of_lt_of_le (Nat.succ_pos steps) hfree)
        obtain ⟨hcluster, hzero⟩ := mem_freeClusters.mp hx
        exact absurd hzero (hnone x hcluster)

/-- The first cluster of a chain, or zero. -/
def firstOf (cs : List Nat) : Nat := cs.head?.getD 0

theorem exec_ensureClusterForIndex (hg : st.Geometry) (h : Chain st d cs)
    (hfree : idx + 1 ≤ cs.length + (st.freeClusters d).card) :
    ∃ c d' cs', exec (Disk.device VfsError) (st.ensureClusterForIndex (firstOf cs) idx) d =
        some (.ok (firstOf cs', c), d') ∧
      Grown st d cs d' cs' ∧ cs'[idx]? = some c ∧ cs'.length = max cs.length (idx + 1) := by
  cases cs with
  | nil =>
    rw [length_nil, Nat.zero_add] at hfree
    rcases exec_allocateCluster (d := d) hg.layout with ⟨new, d₁, halloc, htaken⟩ | ⟨-, hnone⟩
    · have hone := htaken.appended .nil (fun x hx => htaken.fat hg.layout hx) fun _ _ => rfl
      have hcount := hone.count
      simp only [nil_append, length_singleton, length_nil] at hcount
      obtain ⟨c, d', cs', hrun, hgrown, hget, hlen⟩ := exec_extendChain hg idx [] [] hone.chain (by
          rw [length_nil]
          omega)
      have hfirst : firstOf cs' = new := by
        obtain ⟨t, ht⟩ := hgrown.more
        rw [← ht]
        rfl
      refine ⟨c, d', cs', ?_, hone.trans hgrown, by simpa using hget, ?_⟩
      · have hzero : firstOf [] = 0 := rfl
        rw [ensureClusterForIndex, if_pos hzero, exec_bind, halloc, andThen_ok, exec_bind, hrun,
          andThen_ok, exec_pure, hfirst]
      · rw [hlen]
        simp only [length_nil]
        omega
    · obtain ⟨x, hx⟩ := Finset.card_pos.mp (Nat.lt_of_lt_of_le (Nat.succ_pos idx) hfree)
      obtain ⟨hcluster, hzero⟩ := mem_freeClusters.mp hx
      exact absurd hzero (hnone x hcluster)
  | cons first rest =>
    have hne : firstOf (first :: rest) ≠ 0 := by
      have := (h.clusters first (by simp)).1
      change first ≠ 0
      omega
    obtain ⟨c, d', cs', hrun, hgrown, hget, hlen⟩ := exec_extendChain hg idx [] rest h (by
        rw [length_cons] at hfree
        omega)
    have hfirst : firstOf cs' = first := by
      obtain ⟨t, ht⟩ := hgrown.more
      rw [← ht]
      rfl
    refine ⟨c, d', cs', ?_, hgrown, by simpa using hget, ?_⟩
    · rw [ensureClusterForIndex, if_neg hne, exec_bind, exec_pure, andThen_ok, exec_bind]
      change Outcome.andThen (exec _ (st.extendChain idx first) d) _ = _
      rw [hrun, andThen_ok, exec_pure, hfirst]
      rfl
    · rw [hlen]
      simp only [length_nil, length_cons]
      omega

end FatFsState

/-- A volume with three clusters of four slots each. -/
def dirVolume : FatFsState := ⟨1, ⟨128, 1, 0, 1, 0, 0, 0, 2⟩, 0, 20, 20, 3⟩

theorem dirVolume_geometry : dirVolume.Geometry :=
  ⟨by decide, by decide, by decide, by decide, by decide⟩

/-- Slots in its first cluster, which is the only one of its chain. -/
def dirDisk (slots : List (List UInt8)) : Disk :=
  Disk.put (Disk.put (fun _ => 0) 8 (Bytes.ofNat 4 FatEoc)) 20 slots.flatten

end BoruixKernel
