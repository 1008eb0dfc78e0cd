import BoruixKernel.Fs.FatChain
import BoruixKernel.Fs.Sysfs
import BoruixKernel.Fs.Tmpfs

/-!
# Files of FatFs and of tmpfs

A file as a string of bytes, which reads and writes treat as one would expect, and the two
filesystems as implementations of it.  On the side of FatFs the bytes are spread over a
chain of clusters; `Written` says what a step of `write` does to them.
-/

namespace BoruixKernel

open DeviceProg List Outcome Bytes

/-! ## The flat file -/

/-- A read or a write of an open file. -/
inductive FileOp where
  | read (offset len : Nat)
  | write (offset : Nat) (buf : List UInt8)
deriving DecidableEq, Repr

/-- The bytes that were read, or how many were written. -/
inductive FileAnswer where
  | bytes (data : List UInt8)
  | count (n : Nat)
deriving DecidableEq, Repr

namespace FlatFile

/-- The bytes of `[offset, min (offset + len) size)`. -/
def read (offset len : Nat) (content : List UInt8) : List UInt8 :=
  Bytes.slice offset (min (offset + len) content.length - offset) content

/-- A gap before the offset is filled with zeros. -/
def write (offset : Nat) (buf content : List UInt8) : List UInt8 :=
  Bytes.store offset buf (Bytes.fill (offset + buf.length) content)

theorem length_write (offset : Nat) (buf content : List UInt8) :
    (write offset buf content).length = max content.length (offset + buf.length) := by
  rw [write, length_store, length_fill, Nat.max_comm]
  rw [length_fill]
  exact Nat.le_max_left _ _

theorem getD_write (offset : Nat) (buf content : List UInt8) (i : Nat) :
    (write offset buf content).getD i 0 =
      if offset ≤ i ∧ i < offset + buf.length then buf.getD (i - offset) 0
      else content.getD i 0 := by
  rw [write, getD_store, getD_fill]
  rw [length_fill]
  exact Nat.le_max_left _ _

def perform : FileOp → List UInt8 → FileAnswer × List UInt8
  | .read offset len, content => (.bytes (read offset len content), content)
  | .write offset buf, content => (.count buf.length, write offset buf content)

/-- The answers to a sequence of operations. -/
def answers : List FileOp → List UInt8 → List FileAnswer
  | [], _ => []
  | op :: ops, content => (perform op content).1 :: answers ops (perform op content).2

end FlatFile

/-! ## The bytes of a chain -/

namespace FatFsState

variable {st : FatFsState} {d d' : Disk} {c idx : Nat} {cs cs' : List Nat} {new : Nat → Option UInt8}

/-- The bytes of the clusters of a chain, one cluster after the other. -/
def fileByte (st : FatFsState) (d : Disk) (cs : List Nat) (i : Nat) : UInt8 :=
  d (st.base (cs.getD (i / st.clusterSize) 0) + i % st.clusterSize)

theorem fileByte_eq (h : cs[i / st.clusterSize]? = some c) :
    st.fileByte d cs i = d (st.base c + i % st.clusterSize) := by
  rw [fileByte, getD_eq_getElem?_getD, h, Option.getD_some]

/-- A byte of a chain lies in one of its clusters. -/
theorem exists_cluster (hg : st.Geometry) (hi : i < cs.length * st.clusterSize) :
    ∃ c ∈ cs, cs[i / st.clusterSize]? = some c ∧ i % st.clusterSize < st.clusterSize := by
  have hlt : i / st.clusterSize < cs.length := (Nat.div_lt_iff_lt_mul hg.clusterSize).mpr hi
  exact ⟨cs[i / st.clusterSize], getElem_mem hlt, getElem?_eq_getElem hlt,
    Nat.mod_lt _ hg.clusterSize⟩

/-- Writing to a cluster of something else leaves the bytes of the chain. -/
theorem fileByte_put_apart (hg : st.Geometry) (h : Chain st d cs) (hc : st.IsCluster c)
    (hnot : c ∉ cs) (hoff : st.base c ≤ off) (hend : off + data.length ≤ st.base c + st.clusterSize)
    (hi : i < cs.length * st.clusterSize) :
    st.fileByte (d.put off data) cs i = st.fileByte d cs i := by
  obtain ⟨x, hx, hget, hmod⟩ := exists_cluster hg hi
  have hne : x ≠ c := fun heq => hnot (heq ▸ hx)
  have hapart := base_apart (h.clusters x hx) hc hne
  rw [fileByte_eq hget, fileByte_eq hget]
  exact Disk.put_of_not_mem (by omega)

/-- The bytes of a chain have been changed as `new` says.  The chain may have grown by
clusters that were free; the bytes it has gained and that `new` does not give are zero. -/
structure Written (st : FatFsState) (d : Disk) (cs : List Nat) (new : Nat → Option UInt8) (d' : Disk)
    (cs' : List Nat) : Prop where
  chain : Chain st d' cs'
  more : cs <+: cs'
  fresh : ∀ c ∈ cs', c ∉ cs → st.fat d c = 0
  others : ∀ c, st.IsCluster c → c ∉ cs' → st.fat d' c = st.fat d c
  bytes : ∀ i < cs'.length * st.clusterSize, st.fileByte d' cs' i =
    (new i).getD (if i < cs.length * st.clusterSize then st.fileByte d cs i else 0)
  covered : ∀ i, new i ≠ none → i < cs'.length * st.clusterSize
  count : (st.freeClusters d').card + cs'.length = (st.freeClusters d).card + cs.length

theorem Written.length_le (h : Written st d cs new d' cs') :
    cs.length * st.clusterSize ≤ cs'.length * st.clusterSize :=
  Nat.mul_le_mul_right _ h.more.length_le

theorem Grown.written (h : Grown st d cs d' cs') (hg : st.Geometry) (hold : Chain st d cs) :
    Written st d cs (fun _ => none) d' cs' where
  chain := h.chain
  more := h.more
  fresh := h.fresh
  others := h.others
  bytes i hi := by
    obtain ⟨c, hc, hget, hmod⟩ := exists_cluster hg hi
    rw [fileByte_eq hget, Option.getD_none]
    split
    · next hlt =>
      obtain ⟨c', hc', hget', -⟩ := exists_cluster hg hlt
      have hsame : c' = c := by
        obtain ⟨t, rfl⟩ := h.more
        rw [List.getElem?_append_left ((List.getElem?_eq_some_iff.mp hget').1)] at hget
        exact Option.some.inj (hget'.symm.trans hget)
      subst hsame
      rw [fileByte_eq hget', h.bytes (hold.clusters c' hc') (.inl hc') hmod]
    · next hge =>
      refine h.zero c hc (fun hmem => ?_) _ hmod
      -- A cluster of the old chain stands before the place of this byte.
      obtain ⟨k, hk, hkc⟩ := getElem_of_mem hmem
      have hk' : cs'[k]? = some c := by
        obtain ⟨t, rfl⟩ := h.more
        rw [getElem?_append_left hk, getElem?_eq_getElem hk, hkc]
      have hidx : k = i / st.clusterSize :=
        (List.getElem?_inj (List.getElem?_eq_some_iff.mp hk').1 h.chain.nodup).mp
          (hk'.trans hget.symm)
      exact hge ((Nat.div_lt_iff_lt_mul hg.clusterSize).mp (hidx ▸ hk))
  covered _ hnew := absurd rfl hnew
  count := h.count

theorem Written.trans (h : Written st d cs new d' cs') (h' : Written st d' cs' new2 d2 cs2) :
    Written st d cs (fun i => (new2 i).or (new i)) d2 cs2 where
  chain := h'.chain
  more := h.more.trans h'.more
  fresh c hc hnot := by
    by_cases hmid : c ∈ cs'
    · exact h.fresh c hmid hnot
    · rw [← h.others c (h'.chain.clusters c hc) hmid]
      exact h'.fresh c hc hmid
  others c hc hnot := by
    rw [h'.others c hc hnot]
    exact h.others c hc fun hmem => hnot (h'.more.subset hmem)
  bytes i hi := by
    rw [h'.bytes i hi]
    cases hnew2 : new2 i with
    | some b => simp
    | none =>
      rw [Option.getD_none, Option.none_or]
      split
      · next hlt => exact h.bytes i hlt
      · next hge =>
        have hnone : new i = none := by
          by_contra hsome
          exact hge (h.covered i hsome)
        have hle := h.length_le
        rw [hnone, Option.getD_none, if_neg (by omega)]
  covered i hnew := by
    cases hnew2 : new2 i with
    | some b => exact h'.covered i (by simp [hnew2])
    | none =>
      rw [hnew2, Option.none_or] at hnew
      exact Nat.lt_of_lt_of_le (h.covered i hnew) h'.length_le
  count := by rw [h'.count, h.count]

/-- Writing one of the clusters of a chain. -/
theorem written_put (hg : st.Geometry) (h : Chain st d cs) (hget : cs[idx]? = some c)
    (hlen : data.length = st.clusterSize) (hhere : ∀ i, i / st.clusterSize = idx →
      data.getD (i % st.clusterSize) 0 = (new i).getD (st.fileByte d cs i))
    (helse : ∀ i, i / st.clusterSize ≠ idx → new i = none) :
    Written st d cs new (d.put (st.base c) data) cs := by
  obtain ⟨hidx, hidxc⟩ := List.getElem?_eq_some_iff.mp hget
  have hc : c ∈ cs := hidxc ▸ getElem_mem hidx
  have hfat : ∀ x, st.IsCluster x → st.fat (d.put (st.base c) data) x = st.fat d x :=
    fun x hx => fat_put_data hg.layout (dataOffset_le_base st c) data hx
  refine ⟨h.congr fun x hx => hfat x (h.clusters x hx), prefix_rfl,
    fun x hx hnot => absurd hx hnot, fun x hx _ => hfat x hx, ?_, ?_, ?_⟩
  · intro i hi
    obtain ⟨x, hx, hgetx, hmod⟩ := exists_cluster hg hi
    rw [if_pos hi]
    by_cases hi' : i / st.clusterSize = idx
    · obtain rfl : c = x := Option.some.inj (hget.symm.trans (hi' ▸ hgetx))
      rw [fileByte_eq hgetx, Disk.put_of_mem (by omega) (by omega), Nat.add_sub_cancel_left]
      exact hhere i hi'
    · have hne : x ≠ c := by
        rintro rfl
        exact hi' ((List.getElem?_inj (List.getElem?_eq_some_iff.mp hgetx).1 h.nodup).mp
          (hgetx.trans hget.symm))
      have hapart := base_apart (h.clusters x hx) (h.clusters c hc) hne
      rw [helse i hi', Option.getD_none, fileByte_eq hgetx, fileByte_eq hgetx]
      exact Disk.put_of_not_mem (by omega)
  · intro i hnew
    have hi' : i / st.clusterSize = idx := by
      by_contra hne
      exact hnew (helse i hne)
    exact (Nat.div_lt_iff_lt_mul hg.clusterSize).mp (hi' ▸ hidx)
  · rw [freeClusters_congr hfat]

/-! ## Writing -/

/-- The bytes of the buffer that lie in the clusters with the given indices. -/
def patch (st : FatFsState) (offset : Nat) (buf : List UInt8) (idxs : List Nat) (i : Nat) :
    Option UInt8 :=
  if i / st.clusterSize ∈ idxs ∧ offset ≤ i then buf[i - offset]? else none

theorem patch_cons (offset : Nat) (buf : List UInt8) (idx : Nat) (idxs : List Nat) (i : Nat) :
    (st.patch offset buf idxs i).or (st.patch offset buf [idx] i) =
      st.patch offset buf (idx :: idxs) i := by
  simp only [patch, mem_cons, not_mem_nil, or_false]
  by_cases hoff : offset ≤ i
  · by_cases hrest : i / st.clusterSize ∈ idxs
    · simp only [hoff, hrest, or_true, and_true, if_true]
      split
      · exact Option.or_self
      · exact Option.or_none
    · simp [hrest]
  · simp [hoff]

/-- The buffer of a round of `write`: the old bytes of the cluster with those of the
range put in. -/
theorem getD_clusterBuf (offset : Nat) (buf : List UInt8) (hsize : 0 < size)
    (hold : old.length = size) (hstart : offset < (i / size + 1) * size)
    (hstop : i / size * size < offset + buf.length) :
    let clusterOff := i / size * size
    let start := if clusterOff < offset then offset - clusterOff else 0
    let stop := min size (offset + buf.length - clusterOff)
    let part := Bytes.slice (clusterOff + start - offset) (stop - start) buf
    start + part.length ≤ old.length ∧
      (Bytes.store start part old).getD (i % size) 0 =
        if offset ≤ i then (buf[i - offset]?).getD (old.getD (i % size) 0)
        else old.getD (i % size) 0 := by
  have hi : i / size * size + i % size = i := Nat.div_add_mod' i size
  have hmod : i % size < size := Nat.mod_lt i hsize
  rw [Nat.succ_mul] at hstart
  generalize i / size * size = clusterOff at hi hstart hstop ⊢
  intro _ start stop part
  have hlen : part.length = stop - start := by
    simp only [part, length_slice, start, stop]
    split <;> omega
  have hfits : start + part.length ≤ old.length := by
    simp only [hlen, start, stop]
    split <;> omega
  refine ⟨hfits, ?_⟩
  rw [getD_store hfits, hlen]
  by_cases hin : offset ≤ i ∧ i < offset + buf.length
  · have hplace : start ≤ i % size ∧ i % size < start + (stop - start) := by
      simp only [start, stop]
      split <;> omega
    have hbuf : clusterOff + start - offset + (i % size - start) = i - offset := by
      simp only [start]
      split <;> omega
    rw [if_pos hplace, if_pos hin.1, getD_slice _ (by omega), hbuf,
      getD_eq_getElem?_getD, getElem?_eq_getElem (by omega)]
    rfl
  · have hplace : ¬ (start ≤ i % size ∧ i % size < start + (stop - start)) := by
      simp only [start, stop]
      split <;> omega
    rw [if_neg hplace]
    split
    · rw [getElem?_eq_none (by omega), Option.getD_none]
    · rfl

/-- One round of `write`. -/
theorem exec_writePart (hg : st.Geometry) (h : Chain st d cs) (idx : Nat) (buf : List UInt8)
    (hfree : idx + 1 ≤ cs.length + (st.freeClusters d).card)
    (hstart : offset < (idx + 1) * st.clusterSize) (hstop : idx * st.clusterSize < offset + buf.length) :
    ∃ d' cs', exec (Disk.device VfsError) (st.writePart offset buf (firstOf cs) idx) d =
        some (.ok (firstOf cs'), d') ∧
      Written st d cs (st.patch offset buf [idx]) d' cs' ∧ cs'.length = max cs.length (idx + 1) := by
  obtain ⟨c, d1, cs1, hrun, hgrown, hget, hlen⟩ := exec_ensureClusterForIndex hg h hfree
  have hc : st.IsCluster c := hgrown.chain.clusters c (mem_of_getElem? hget)
  have hold : (d1.get (st.base c) st.clusterSize).length = st.clusterSize := Disk.length_get ..
  have hbuf := fun i (hi : i / st.clusterSize = idx) =>
    getD_clusterBuf offset buf (i := i) hg.clusterSize hold
      (hi ▸ hstart) (hi ▸ hstop)
  have hlen0 := (hbuf (idx * st.clusterSize) (Nat.mul_div_cancel _ hg.clusterSize)).1
  rw [Nat.mul_div_cancel _ hg.clusterSize] at hlen0
  have hwritten : Written st d1 cs1 (st.patch offset buf [idx]) _ cs1 :=
    written_put hg hgrown.chain hget ((length_store hlen0).trans hold) (fun i hi => by
      obtain ⟨-, hbyte⟩ := hbuf i hi
      rw [hi] at hbyte
      rw [hbyte, Disk.getD_get _ _ _ (Nat.mod_lt _ hg.clusterSize), fileByte_eq (hi ▸ hget), patch]
      simp only [hi, mem_singleton, true_and]
      split <;> rfl)
    (fun i hi => if_neg fun hand => hi (mem_singleton.mp hand.1))
  have hboth := (hgrown.written hg h).trans hwritten
  simp only [Option.or_none] at hboth
  refine ⟨_, cs1, ?_, hboth, hlen⟩
  rw [writePart, exec_bind, hrun, andThen_ok]
  simp [exec_bind, exec_readCluster hc, andThen_ok, exec_writeCluster hc ((length_store hlen0).trans hold), exec_pure]

/-- The rounds of `write` for indices in order, up to one that the free clusters suffice
for. -/
theorem exec_writeParts (hg : st.Geometry) (h : Chain st d cs) (offset : Nat) (buf : List UInt8)
    (start n : Nat)
    (hfree : ∀ k < n, start + k < cs.length + (st.freeClusters d).card)
    (hstart : offset < (start + 1) * st.clusterSize)
    (hstop : ∀ k < n, (start + k) * st.clusterSize < offset + buf.length) :
    ∃ d' cs', exec (Disk.device VfsError)
        (st.writeParts offset buf (List.range' start n) (firstOf cs)) d =
        some (.ok (firstOf cs'), d') ∧
      Written st d cs (st.patch offset buf (List.range' start n)) d' cs' ∧
      cs'.length = if n = 0 then cs.length else max cs.length (start + n) := by
  induction n generalizing start d cs with
  | zero =>
    refine ⟨d, cs, rfl, ?_, rfl⟩
    have hnone : st.patch offset buf (List.range' start 0) = fun _ => none := by
      funext i
      simp [patch]
    rw [hnone]
    exact (Grown.refl h).written hg h
  | succ n ih =>
    obtain ⟨d1, cs1, hrun1, hwritten1, hlen1⟩ := exec_writePart hg h start buf
      (hfree 0 (Nat.succ_pos n)) hstart (by simpa using hstop 0 (Nat.succ_pos n))
    have hcount := hwritten1.count
    obtain ⟨d2, cs2, hrun2, hwritten2, hlen2⟩ := ih hwritten1.chain (start + 1)
      (fun k hk => by
        have := hfree (k + 1) (by omega)
        omega)
      (by rw [Nat.succ_mul]; omega) (fun k hk => by
        have := hstop (k + 1) (by omega)
        rwa [Nat.add_assoc, Nat.add_comm 1 k])
    refine ⟨d2, cs2, ?_, ?_, ?_⟩
    · rw [range'_succ, writeParts, exec_bind, hrun1, andThen_ok]
      exact hrun2
    · rw [range'_succ]
      have hboth := hwritten1.trans hwritten2
      simp only [patch_cons] at hboth
      exact hboth
    · rw [hlen2, hlen1, if_neg (Nat.succ_ne_zero n)]
      split <;> omega

/-! ## Reading -/

theorem exec_skipClusters (hg : st.Geometry) (pre : List Nat) (h : Chain st d (pre ++ c :: post))
    (hsteps : steps ≤ post.length) :
    exec (Disk.device VfsError) (st.skipClusters steps c) d =
      some (.ok (c :: post)[steps]?, d) := by
  induction steps generalizing pre c post with
  | zero => rfl
  | succ steps ih =>
    cases post with
    | nil => exact absurd hsteps (Nat.not_succ_le_zero steps)
    | cons c' post =>
      have hlist : pre ++ c :: c' :: post = (pre ++ [c]) ++ c' :: post := by simp
      rw [skipClusters, exec_bind, h.next_some hg, andThen_ok]
      exact ih (pre ++ [c]) (hlist ▸ h) (Nat.le_of_succ_le_succ hsteps)

/-- The part of a round of `read` is a range of the bytes of the chain. -/
theorem slice_get_eq_map (pre post : List Nat) {skip take : Nat}
    (htake : skip + take ≤ st.clusterSize) :
    Bytes.slice skip take (d.get (st.base c) st.clusterSize) =
      (List.range take).map fun i =>
        st.fileByte d (pre ++ c :: post) (pre.length * st.clusterSize + skip + i) := by
  rw [slice_eq_map, Disk.length_get, Nat.min_eq_left (by omega)]
  refine map_congr_left fun i hi => ?_
  rw [mem_range] at hi
  have hdiv : (pre.length * st.clusterSize + skip + i) / st.clusterSize = pre.length := by
    rw [Nat.add_assoc, Nat.mul_comm, Nat.mul_add_div (by omega), Nat.div_eq_of_lt (by omega),
      Nat.add_zero]
  have hmod : (pre.length * st.clusterSize + skip + i) % st.clusterSize = skip + i := by
    rw [Nat.add_assoc, Nat.mul_comm, Nat.mul_add_mod, Nat.mod_eq_of_lt (by omega)]
  rw [Disk.getD_get _ _ _ (by omega), fileByte_eq (c := c) (by rw [hdiv]; simp), hmod]

/-- The loop of `read`, from a cluster of the chain on. -/
theorem exec_readLoop (hg : st.Geometry) {rounds : Nat} (skip remaining : Nat)
    (h : Chain st d (pre ++ c :: post)) (hrounds : remaining < rounds)
    (hskip : skip < st.clusterSize)
    (hroom : skip + remaining ≤ (post.length + 1) * st.clusterSize) :
    exec (Disk.device VfsError) (st.readLoop rounds c skip remaining) d =
      some (.ok ((List.range remaining).map fun i =>
        st.fileByte d (pre ++ c :: post) (pre.length * st.clusterSize + skip + i)), d) := by
  induction rounds generalizing pre c post skip remaining with
  | zero => exact absurd hrounds (Nat.not_lt_zero _)
  | succ rounds ih =>
    have hpart := fun take (h : skip + take ≤ st.clusterSize) =>
      slice_get_eq_map (d := d) (c := c) pre post h
    rw [readLoop, exec_bind, exec_readCluster (h.clusters c (by simp)), andThen_ok]
    dsimp only
    by_cases hlast : remaining ≤ st.clusterSize - skip
    · rw [Nat.min_eq_right hlast, Nat.sub_self, if_pos rfl, exec_pure, hpart _ (by omega)]
    · rw [Nat.min_eq_left (by omega), if_neg (by omega)]
      cases post with
      | nil =>
        rw [length_nil, Nat.zero_add, Nat.one_mul] at hroom
        omega
      | cons c' post =>
        have hlist : pre ++ c :: c' :: post = (pre ++ [c]) ++ c' :: post := by simp
        have hrest := ih 0 (remaining - (st.clusterSize - skip)) (hlist ▸ h)
          (by omega) hg.clusterSize (by
            rw [length_cons, Nat.succ_mul] at hroom
            omega)
        rw [exec_bind, h.next_some hg, andThen_ok]
        simp only [exec_bind, hrest, andThen_ok, exec_pure]
        -- The two ranges follow one another.
        have hsum : remaining = (st.clusterSize - skip) + (remaining - (st.clusterSize - skip)) := by
          omega
        rw [hpart _ (by omega), hlist]
        conv_rhs => rw [hsum, range_add, map_append, map_map]
        refine congrArg (fun l => some (Except.ok (_ ++ l), d)) (map_congr_left fun i _ => ?_)
        simp only [Function.comp_apply, length_append, length_singleton, Nat.succ_mul]
        congr 1
        omega

end FatFsState

/-! ## Files of FatFs -/

open FatFsState

variable {node : FatNode} {d : Disk} {cs : List Nat} {content : List UInt8}

/-- The place of a directory entry: in a cluster of something else. -/
def EntryPlace (st : FatFsState) (d : Disk) (cs : List Nat) (offset : Nat) : Prop :=
  ∃ e, st.IsCluster e ∧ st.fat d e ≠ 0 ∧ e ∉ cs ∧ st.base e ≤ offset ∧
    offset + 32 ≤ st.base e + st.clusterSize

/-- A file with the given content: its chain is as long as its size needs, and holds zeros
beyond it. -/
structure HasContent (d : Disk) (node : FatNode) (cs : List Nat) (content : List UInt8) : Prop where
  geometry : node.fs.Geometry
  isFile : node.isDir = false
  chain : Chain node.fs d cs
  first : node.firstCluster = firstOf cs
  size : node.size = content.length
  small : content.length < 2 ^ 32
  room : cs.length = (content.length + node.fs.clusterSize - 1) / node.fs.clusterSize
  bytes : ∀ i < cs.length * node.fs.clusterSize, node.fs.fileByte d cs i = content.getD i 0
  entry : ∀ offset ∈ node.entryOffset, EntryPlace node.fs d cs offset

/-- What is divided fits in the quotient, if that is rounded up. -/
theorem le_roundUp_mul (hsize : 0 < size) (n : Nat) : n ≤ (n + size - 1) / size * size := by
  have h := Nat.lt_mul_div_succ (n + size - 1) hsize
  rw [Nat.mul_succ, Nat.mul_comm] at h
  omega

theorem HasContent.fits (h : HasContent d node cs content) :
    content.length ≤ cs.length * node.fs.clusterSize := by
  rw [h.room]
  exact le_roundUp_mul h.geometry.clusterSize _

theorem HasContent.read (h : HasContent d node cs content) (offset len : Nat) :
    exec (Disk.device VfsError) (node.read offset len) d =
      some (.ok (FlatFile.read offset len content), d) := by
  have hsize := h.geometry.clusterSize
  have hfits := h.fits
  rw [FatNode.read, if_neg (by simp [h.isFile])]
  by_cases hoff : content.length ≤ offset
  · have hnil : FlatFile.read offset len content = [] := by
      rw [FlatFile.read, Nat.sub_eq_zero_of_le (by omega)]
      exact take_zero
    rw [h.size, if_pos hoff, ite_self, exec_pure, hnil]
  · -- The file is not empty, and neither is its chain.
    have hk : offset / node.fs.clusterSize < cs.length :=
      (Nat.div_lt_iff_lt_mul hsize).mpr (by omega)
    obtain ⟨c, post, rfl⟩ : ∃ c post, cs = c :: post := by
      cases cs with
      | nil => exact absurd hk (Nat.not_lt_zero _)
      | cons c post => exact ⟨c, post, rfl⟩
    have hc : c ≠ 0 := by
      have := (h.chain.clusters c mem_cons_self).1
      omega
    have hfirst : node.firstCluster = c := h.first
    rw [hfirst, h.size, if_neg (by omega), if_neg hoff, exec_bind,
      exec_skipClusters h.geometry [] h.chain (Nat.le_of_lt_succ hk),
      getElem?_eq_getElem hk, andThen_ok]
    have hsplit : c :: post = (c :: post).take (offset / node.fs.clusterSize) ++
        (c :: post)[offset / node.fs.clusterSize] ::
          (c :: post).drop (offset / node.fs.clusterSize + 1) := by
      rw [getElem_cons_drop, take_append_drop]
    have hpre : ((c :: post).take (offset / node.fs.clusterSize)).length =
        offset / node.fs.clusterSize := length_take_of_le (Nat.le_of_lt hk)
    have hdivmod := Nat.div_add_mod' offset node.fs.clusterSize
    have hloop := exec_readLoop h.geometry (offset % node.fs.clusterSize)
      (min len (content.length - offset)) (hsplit ▸ h.chain)
      (Nat.lt_succ_self _) (Nat.mod_lt _ hsize) (by
        have hlen := congrArg List.length hsplit
        rw [length_append, hpre, length_cons (a := (c :: post)[_])] at hlen
        rw [hlen, Nat.add_mul] at hfits
        omega)
    rw [← hsplit, hpre, hdivmod] at hloop
    refine hloop.trans ?_
    congr 3
    rw [FlatFile.read, slice_eq_map]
    have hlen : min (min (offset + len) content.length - offset) (content.length - offset) =
        min len (content.length - offset) := by omega
    rw [hlen]
    refine map_congr_left fun i hi => ?_
    rw [mem_range] at hi
    exact h.bytes _ (by omega)

/-- The new bytes of a write, wherever the clusters end. -/
theorem patch_range' {st : FatFsState} (hsize : 0 < st.clusterSize) (offset : Nat) (buf : List UInt8)
    (i : Nat) (old : UInt8) :
    (st.patch offset buf (List.range' (offset / st.clusterSize)
        ((offset + buf.length + st.clusterSize - 1) / st.clusterSize - offset / st.clusterSize)) i).getD
        old =
      if offset ≤ i ∧ i < offset + buf.length then buf.getD (i - offset) 0 else old := by
  by_cases hin : offset ≤ i ∧ i < offset + buf.length
  · have hlow : offset / st.clusterSize ≤ i / st.clusterSize := Nat.div_le_div_right hin.1
    have hhigh : i / st.clusterSize < (offset + buf.length + st.clusterSize - 1) / st.clusterSize := by
      refine (Nat.div_lt_iff_lt_mul hsize).mpr ?_
      exact Nat.lt_of_lt_of_le hin.2 (le_roundUp_mul hsize _)
    rw [if_pos hin, patch, if_pos ⟨mem_range'_1.mpr (by omega), hin.1⟩,
      getD_eq_getElem?_getD, getElem?_eq_getElem (by omega)]
    rfl
  · rw [if_neg hin, patch]
    split
    · next h =>
      rw [getElem?_eq_none (by omega)]
      rfl
    · rfl

theorem length_setClusterAndSize (h : entry.length = 32) (firstCluster size : Nat) :
    (setClusterAndSize entry firstCluster size).length = 32 := by
  simp only [setClusterAndSize, Bytes.store, length_append, length_take, length_drop,
    length_ofNat, h]
  decide

theorem exec_updateEntry (node : FatNode) (d : Disk) :
    exec (Disk.device VfsError) node.updateEntryClusterAndSize d = some (.ok (), match node.entryOffset with
      | none => d
      | some off => d.put off (setClusterAndSize (d.get off 32) node.firstCluster node.size)) := by
  unfold FatNode.updateEntryClusterAndSize
  cases node.entryOffset with
  | none => rfl
  | some off =>
    simp [readDirEntry, readInto, writeDirEntry, exec_bind, exec_readBytes, exec_writeBytes, Disk.device, andThen_ok, exec_pure, Bytes.fill, Disk.length_get]

/-- The directory entry lies apart from the file. -/
theorem HasContent.updateEntry (h : HasContent d node cs content) :
    ∃ d', exec (Disk.device VfsError) node.updateEntryClusterAndSize d = some (.ok (), d') ∧
      HasContent d' node cs content ∧ node.fs.freeClusters d' = node.fs.freeClusters d := by
  refine ⟨_, exec_updateEntry node d, ?_⟩
  cases hentry : node.entryOffset with
  | none => exact ⟨h, rfl⟩
  | some offset =>
    obtain ⟨e, he, hused, hnot, hlow, hhigh⟩ := h.entry offset hentry
    have hlen := length_setClusterAndSize (Disk.length_get d offset 32) node.firstCluster node.size
    have hfat : ∀ c, node.fs.IsCluster c → node.fs.fat (d.put offset _) c = node.fs.fat d c :=
      fun c hc => fat_put_data h.geometry.layout (Nat.le_trans (dataOffset_le_base node.fs e) hlow)
        (setClusterAndSize (d.get offset 32) node.firstCluster node.size) hc
    refine ⟨⟨h.geometry, h.isFile, h.chain.congr fun c hc => hfat c (h.chain.clusters c hc),
      h.first, h.size, h.small, h.room, fun i hi => ?_, fun off hoff => ?_⟩, freeClusters_congr hfat⟩
    · rw [fileByte_put_apart h.geometry h.chain he hnot hlow (by omega) hi]
      exact h.bytes i hi
    · obtain ⟨e', he', hused', hrest⟩ := h.entry off hoff
      exact ⟨e', he', by rwa [hfat e' he'], hrest⟩

/-- The rounds of a write, up to an index that is not beyond its end. -/
theorem HasContent.writeParts (h : HasContent d node cs content)
    (hend : stop ≤ (offset + buf.length + node.fs.clusterSize - 1) / node.fs.clusterSize)
    (hfree : stop ≤ cs.length + (node.fs.freeClusters d).card) :
    let idxs := List.range' (offset / node.fs.clusterSize) (stop - offset / node.fs.clusterSize)
    ∃ d' cs', exec (Disk.device VfsError) (node.fs.writeParts offset buf idxs node.firstCluster) d =
        some (.ok (firstOf cs'), d') ∧
      Written node.fs d cs (node.fs.patch offset buf idxs) d' cs' ∧
      (offset / node.fs.clusterSize < stop → cs'.length = max cs.length stop) := by
  have hsize := h.geometry.clusterSize
  have hstart : offset < (offset / node.fs.clusterSize + 1) * node.fs.clusterSize := by
    rw [Nat.mul_comm]
    exact Nat.lt_mul_div_succ offset hsize
  obtain ⟨d1, cs1, hrun, hwritten, hlen⟩ := exec_writeParts h.geometry h.chain offset buf
    (offset / node.fs.clusterSize) (stop - offset / node.fs.clusterSize) (fun k hk => by omega) hstart
    fun k hk => by
      have hle := Nat.le_trans (show offset / node.fs.clusterSize + k + 1 ≤ stop by omega) hend
      rw [Nat.le_div_iff_mul_le hsize, Nat.succ_mul] at hle
      omega
  refine ⟨d1, cs1, h.first ▸ hrun, hwritten, fun hlt => ?_⟩
  rw [hlen, if_neg (by omega)]
  omega

theorem HasContent.write (h : HasContent d node cs content) (hne : buf ≠ [])
    (hend : offset + buf.length < 2 ^ 32)
    (hfree : (offset + buf.length + node.fs.clusterSize - 1) / node.fs.clusterSize ≤
      cs.length + (node.fs.freeClusters d).card) :
    ∃ node' d' cs', exec (Disk.device VfsError) (node.write offset buf) d = some (.ok node', d') ∧
      HasContent d' node' cs' (FlatFile.write offset buf content) ∧ node'.fs = node.fs ∧
      (node.fs.freeClusters d').card + cs'.length = (node.fs.freeClusters d).card + cs.length := by
  have hsize := h.geometry.clusterSize
  have hpos : 0 < buf.length := length_pos_iff.mpr hne
  obtain ⟨d1, cs1, hrun, hwritten, hlen1⟩ := h.writeParts (Nat.le_refl _) hfree
  have hlen1 := hlen1 <| (Nat.div_lt_iff_lt_mul hsize).mpr
    (Nat.lt_of_lt_of_le (by omega) (le_roundUp_mul hsize (offset + buf.length)))
  have hfits := h.fits
  have hcontent : HasContent d1 { node with
      firstCluster := firstOf cs1, size := max node.size (offset + buf.length) % 2 ^ 32 } cs1
      (FlatFile.write offset buf content) := by
    have hsmall := h.small
    refine ⟨h.geometry, h.isFile, hwritten.chain, rfl, ?_, ?_, ?_, fun i hi => ?_, fun off hoff => ?_⟩
    · rw [FlatFile.length_write]
      change max node.size (offset + buf.length) % 2 ^ 32 = _
      rw [h.size, Nat.mod_eq_of_lt (by omega)]
    · rw [FlatFile.length_write]
      omega
    · rw [FlatFile.length_write, hlen1, h.room]
      rcases Nat.le_total content.length (offset + buf.length) with hle | hle
      · rw [Nat.max_eq_right hle, Nat.max_eq_right (Nat.div_le_div_right (by omega))]
      · rw [Nat.max_eq_left hle, Nat.max_eq_left (Nat.div_le_div_right (by omega))]
    · have hold : (if i < cs.length * node.fs.clusterSize then node.fs.fileByte d cs i else 0) =
          content.getD i 0 := by
        split
        · next hlt => exact h.bytes i hlt
        · rw [getD_eq_getElem?_getD, getElem?_eq_none (by omega)]
          rfl
      rw [FlatFile.getD_write, hwritten.bytes i hi, hold]
      exact patch_range' hsize offset buf i _
    · obtain ⟨e, he, hused, hnot, hplace⟩ := h.entry off hoff
      have hnot1 : e ∉ cs1 := fun hmem => hused (hwritten.fresh e hmem hnot)
      exact ⟨e, he, by rwa [hwritten.others e he hnot1], hnot1, hplace⟩
  obtain ⟨d2, hupdate, hcontent2, hsame⟩ := hcontent.updateEntry
  refine ⟨_, d2, cs1, ?_, hcontent2, rfl, ?_⟩
  · rw [FatNode.write, exec_bind, FatNode.writeData, if_neg (by simp [h.isFile]), if_neg hne]
    simp only [Nat.mod_eq_of_lt (show offset + buf.length < 2 ^ 64 by omega), exec_bind, hrun,
      andThen_ok, exec_pure, if_pos hne, hupdate]
  · rw [← hwritten.count]
    exact congrArg (fun f => f.card + cs1.length) hsame

/-! ## Sequences of operations -/

/-- An operation on the open file: the answer and the new handle. -/
def FatNode.perform (node : FatNode) : FileOp → FatProg (FileAnswer × FatNode)
  | .read offset len => do
    let bytes ← node.read offset len
    pure (.bytes bytes, node)
  | .write offset buf => do
    let node' ← node.write offset buf
    pure (.count buf.length, node')

def FatNode.answers : List FileOp → FatNode → FatProg (List FileAnswer)
  | [], _ => pure []
  | op :: ops, node => do
    let (answer, node') ← node.perform op
    let rest ← answers ops node'
    pure (answer :: rest)

/-- A file that was just created: no clusters yet, and a directory entry in a cluster that
is not free. -/
structure NewFile (d : Disk) (node : FatNode) : Prop where
  geometry : node.fs.Geometry
  isFile : node.isDir = false
  first : node.firstCluster = 0
  size : node.size = 0
  entry : ∀ offset ∈ node.entryOffset, EntryPlace node.fs d [] offset

theorem NewFile.hasContent (h : NewFile d node) : HasContent d node [] [] where
  geometry := h.geometry
  isFile := h.isFile
  chain := .nil
  first := h.first
  size := h.size
  small := by decide
  room := by
    have := h.geometry.clusterSize
    rw [length_nil, length_nil, Nat.zero_add, Nat.div_eq_of_lt (by omega)]
  bytes i hi := by
    rw [length_nil, Nat.zero_mul] at hi
    exact absurd hi (Nat.not_lt_zero i)
  entry := h.entry

/-- A write is not empty, ends below 4 GiB, and its end is within reach of the free
clusters. -/
def FileOp.Fits (clusterSize free : Nat) : FileOp → Prop
  | .read _ _ => True
  | .write offset buf =>
    buf ≠ [] ∧ offset + buf.length < 2 ^ 32 ∧
      (offset + buf.length + clusterSize - 1) / clusterSize ≤ free

theorem HasContent.perform (h : HasContent d node cs content)
    (hop : op.Fits node.fs.clusterSize ((node.fs.freeClusters d).card + cs.length)) :
    ∃ node' d' cs', exec (Disk.device VfsError) (node.perform op) d =
        some (.ok ((FlatFile.perform op content).1, node'), d') ∧
      HasContent d' node' cs' (FlatFile.perform op content).2 ∧ node'.fs = node.fs ∧
      (node.fs.freeClusters d').card + cs'.length = (node.fs.freeClusters d).card + cs.length := by
  cases op with
  | read offset len =>
    refine ⟨node, d, cs, ?_, h, rfl, rfl⟩
    rw [FatNode.perform, exec_bind, h.read, andThen_ok, exec_pure]
    rfl
  | write offset buf =>
    obtain ⟨hne, hend, hfree⟩ := hop
    rw [Nat.add_comm _ cs.length] at hfree
    obtain ⟨node', d', cs', hrun, hcontent, hfs, hcount⟩ := h.write hne hend hfree
    refine ⟨node', d', cs', ?_, hcontent, hfs, hcount⟩
    rw [FatNode.perform, exec_bind, hrun, andThen_ok, exec_pure]
    rfl

theorem HasContent.answers {ops : List FileOp} (h : HasContent d node cs content)
    (hops : ∀ op ∈ ops,
      op.Fits node.fs.clusterSize ((node.fs.freeClusters d).card + cs.length)) :
    ∃ d', exec (Disk.device VfsError) (node.answers ops) d =
      some (.ok (FlatFile.answers ops content), d') := by
  induction ops generalizing node d cs content with
  | nil => exact ⟨d, rfl⟩
  | cons op ops ih =>
    obtain ⟨node', d1, cs1, hrun, hcontent, hfs, hcount⟩ := h.perform (hops op mem_cons_self)
    obtain ⟨d2, hrest⟩ := ih hcontent fun op' hop' => by
      rw [hfs, hcount]
      exact hops op' (mem_cons_of_mem _ hop')
    refine ⟨d2, ?_⟩
    rw [FatNode.answers, exec_bind, hrun, andThen_ok, exec_bind, hrest, andThen_ok,
      exec_pure]
    rfl

/-! ## Files of tmpfs -/

namespace Tmpfs

variable {ω : Type} (P : Boxed TmpfsFile ω) (n : NodeId)

def perform : FileOp → Vfs ω → VfsResult ω FileAnswer
  | .read offset len, s => (read P n offset len s).andThen fun bytes s => some (.ok (.bytes bytes), s)
  | .write offset buf, s => (write P n offset buf s).andThen fun count s => some (.ok (.count count), s)

def answers : List FileOp → Vfs ω → VfsResult ω (List FileAnswer)
  | [], s => some (.ok [], s)
  | op :: ops, s =>
    (perform P n op s).andThen fun answer s =>
      (answers ops s).andThen fun rest s => some (.ok (answer :: rest), s)

variable {P n} {s : Vfs ω}

/-- The node is a file with the given content. -/
def FileWith (P : Boxed TmpfsFile ω) (n : NodeId) (content : List UInt8) (s : Vfs ω) : Prop :=
  ∃ h file, getHandle P n s = .ok (h, file) ∧ file.kind = .File ∧ file.data = content

theorem FileWith.read (hfile : FileWith P n content s) (offset len : Nat) :
    Tmpfs.read P n offset len s = some (.ok (FlatFile.read offset len content), s) := by
  obtain ⟨h, file, hget, hkind, rfl⟩ := hfile
  rw [Tmpfs.read, hget]
  simp only [hkind, ne_eq, not_true_eq_false, if_false]
  rw [FlatFile.read, Nat.min_comm]
  split
  · next hoff =>
    rw [Nat.sub_eq_zero_of_le (by omega)]
    rfl
  · rfl

theorem FileWith.write (hfile : FileWith P n content s) (hend : offset + buf.length < 2 ^ 32) :
    ∃ s', Tmpfs.write P n offset buf s = some (.ok buf.length, s') ∧
      FileWith P n (FlatFile.write offset buf content) s' := by
  obtain ⟨h, file, hget, hkind, rfl⟩ := hfile
  have hhandle : (s.nodes n).handle = some h := by
    rw [getHandle] at hget
    split at hget
    · cases hget
    · next h' hh =>
      split at hget
      · cases hget
      · cases hget
        exact hh
  have hwrite : Tmpfs.write P n offset buf s = some (.ok buf.length, Vfs.modify
      { s with heap := Function.update s.heap h (some (P.box
        { file with data := FlatFile.write offset buf file.data })) } n
      ({ · with size := UInt64.ofNat (FlatFile.write offset buf file.data).length })) := by
    rw [Tmpfs.write, hget]
    simp only [hkind, ne_eq, not_true_eq_false, if_false]
    rw [if_neg (by omega)]
    rfl
  refine ⟨_, hwrite, h, { file with data := FlatFile.write offset buf file.data }, ?_, hkind, rfl⟩
  simp [getHandle, Vfs.modify, hhandle, P.unbox_box]

theorem FileWith.answers {ops : List FileOp} (hfile : FileWith P n content s)
    (hops : ∀ op ∈ ops, op.Fits size free) :
    ∃ s', Tmpfs.answers P n ops s = some (.ok (FlatFile.answers ops content), s') := by
  induction ops generalizing s content with
  | nil => exact ⟨s, rfl⟩
  | cons op ops ih =>
    obtain ⟨s1, hrun, hfile1⟩ : ∃ s1, perform P n op s = some (.ok (FlatFile.perform op content).1, s1) ∧
        FileWith P n (FlatFile.perform op content).2 s1 := by
      cases op with
      | read offset len =>
        refine ⟨s, ?_, hfile⟩
        rw [perform, hfile.read, andThen_ok]
        rfl
      | write offset buf =>
        obtain ⟨s1, hwrite, hfile1⟩ := hfile.write (hops _ mem_cons_self).2.1
        refine ⟨s1, ?_, hfile1⟩
        rw [perform, hwrite, andThen_ok]
        rfl
    obtain ⟨s2, hrest⟩ := ih hfile1 fun op' hop' => hops op' (mem_cons_of_mem _ hop')
    refine ⟨s2, ?_⟩
    rw [Tmpfs.answers, hrun, andThen_ok, hrest, andThen_ok]
    rfl

/-- A file that `mkfile` has just made is empty. -/
theorem fileWith_of_mkfile {fsid : Nat} {parent : NodeId} {name : Str} {s0 : Vfs ω}
    (h : (ops P fsid).mkfile parent name n s0 = some (.ok (), s)) : FileWith P n [] s := by
  cases h
  refine ⟨s0.nextHandle, .new .File, ?_, rfl, rfl⟩
  simp [getHandle, Vfs.modify, Vfs.setHandle, P.unbox_box]

end Tmpfs

/-! ## The two filesystems -/

/-- New files of FatFs and of tmpfs answer like the flat file. -/
theorem answers_alike (hnew : NewFile d node) {ω : Type} {P : Boxed TmpfsFile ω} {fsid : Nat}
    {parent n : NodeId} {name : Str} {s₀ s : Vfs ω}
    (hmkfile : (Tmpfs.ops P fsid).mkfile parent name n s₀ = some (.ok (), s)) (ops : List FileOp)
    (hops : ∀ op ∈ ops, op.Fits node.fs.clusterSize (node.fs.freeClusters d).card) :
    (∃ d', exec (Disk.device VfsError) (node.answers ops) d =
        some (.ok (FlatFile.answers ops []), d')) ∧
      ∃ s', Tmpfs.answers P n ops s = some (.ok (FlatFile.answers ops []), s') :=
  ⟨hnew.hasContent.answers hops, (Tmpfs.fileWith_of_mkfile hmkfile).answers hops⟩

/-- A volume with three clusters of 32 bytes, two of them free. -/
def tinyVolume : FatFsState where
  dev := 1
  bpb := ⟨32, 1, 1, 2, 0, 0, 0, 2⟩
  fatOffset := 32
  fatSize := 20
  dataOffset := 72
  clusterCount := 3

/-- Only the cluster of the root directory is taken. -/
def tinyDisk : Disk := Disk.put (Disk.put (fun _ => 0) 40 (Bytes.ofNat 4 FatEoc)) 60 (Bytes.ofNat 4 FatEoc)

def tinyFile : FatNode := ⟨tinyVolume, 0, 0, false, some 72⟩

theorem tinyFile_new : NewFile tinyDisk tinyFile := by
  refine ⟨⟨by decide, by decide, by decide, by decide, by decide⟩, rfl, rfl, rfl, ?_⟩
  rintro _ ⟨⟩
  exact ⟨2, ⟨by decide, by decide⟩, by decide +kernel, not_mem_nil, by decide, by decide⟩

/-- A write beyond the end of the empty file, and a read across two clusters. -/
theorem answers_alike_gap :
    let node : FatNode := ⟨tinyVolume, 0, 0, false, some 72⟩
    let ops : List FileOp := [.write 30 [1, 2, 3], .read 28 10]
    let s := (vfsInit.setHandle 1 (.new .File)).modify 1 ({ · with nodeType := .None })
    FlatFile.answers ops [] = [.count 3, .bytes [0, 0, 1, 2, 3]] ∧
      (∃ d', exec (Disk.device VfsError) (node.answers ops) tinyDisk =
        some (.ok (FlatFile.answers ops []), d')) ∧
      ∃ s', Tmpfs.answers (Boxed.self TmpfsFile) 1 ops s =
        some (.ok (FlatFile.answers ops []), s') := by
  intro node ops s
  have hmkfile : (Tmpfs.ops (Boxed.self TmpfsFile) 1).mkfile 0 [] 1 vfsInit = some (.ok (), s) := rfl
  refine ⟨by decide +kernel, answers_alike tinyFile_new hmkfile ops fun op hop => ?_⟩
  have hfree : (tinyFile.fs.freeClusters tinyDisk).card = 2 := by decide +kernel
  rw [hfree]
  rcases mem_cons.mp hop with rfl | hop
  · exact ⟨by decide, by decide, by decide⟩
  · obtain rfl := mem_singleton.mp hop
    trivial

/-! ## Sizes -/

/-- The call returns, with an error and `same`, or with a value and `done`. -/
def Handled {σ α : Type} (r : Outcome σ VfsError α) (same : σ → Prop) (done : α → σ → Prop) : Prop :=
  ∃ res s, r = some (res, s) ∧ match res with
    | .error _ => same s
    | .ok a => done a s

theorem handled_ok_iff : Handled (some (.ok a, s)) same done ↔ done a s :=
  ⟨fun ⟨_, _, heq, h⟩ => by cases heq; exact h, fun h => ⟨_, _, rfl, h⟩⟩

variable {offset : Nat} {buf : List UInt8} {ω : Type} {n : NodeId} {t : Vfs ω}

/-- The node has the size of a file of `size` bytes after the write. -/
def WriteSized (n : NodeId) (size offset : Nat) (buf : List UInt8) (count : Nat) (s : Vfs ω) : Prop :=
  count = buf.length ∧ (s.nodes n).size.toNat = max size (offset + buf.length)

/-- tmpfs and sysfs store into a vector. -/
theorem handled_store_iff (hlen : content.length < 2 ^ 63) :
    Handled (if 2 ^ 63 ≤ offset + buf.length then none else some (.ok buf.length, t.modify n
      ({ · with size := UInt64.ofNat (FlatFile.write offset buf content).length }))) same
      (WriteSized n content.length offset buf) ↔ offset + buf.length < 2 ^ 63 := by
  split
  · next hle =>
    refine iff_of_false ?_ (by omega)
    rintro ⟨_, _, ⟨⟩, _⟩
  · next hlt =>
    refine iff_of_true (handled_ok_iff.mpr ⟨rfl, ?_⟩) (by omega)
    simp only [Vfs.modify, Function.update_self, FlatFile.length_write]
    exact UInt64.toNat_ofNat_of_lt' (by simp only [UInt64.size]; omega)

end BoruixKernel
