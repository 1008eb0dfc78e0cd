import BoruixKernel.Fs.FatChain

/-!
# Freeing a chain

`free_chain` follows links that it clears behind itself.  A cluster that it comes to a second
time is free by then, and a free one leads to cluster 0: the loop clears an entry that belongs to
no cluster, and at its second visit there it does not end.  So it ends, with nothing cleared but
entries of its chain, exactly if the chain comes to an end and has no cluster below 2
(`freesOnly_iff`).
-/

namespace BoruixKernel

open DeviceProg List

namespace FatFsState

variable {st : FatFsState} {d d' : Disk} {c : Nat} {cs : List Nat}

/-- The entry of a cluster leads to the next one. -/
def Links (st : FatFsState) (d : Disk) (c c' : Nat) : Prop :=
  st.InTable c ∧ st.fat d c = c' ∧ c' < 0x0FFFFFF8

/-- The clusters that follow each other up to the end of a chain, or to one without an entry. -/
structure Ending (st : FatFsState) (d : Disk) (cs : List Nat) : Prop where
  clusters : ∀ c ∈ cs, 2 ≤ c
  links : cs.IsChain (st.Links d)
  last : ∀ c ∈ cs.getLast?, st.InTable c → 0x0FFFFFF8 ≤ st.fat d c
  nodup : cs.Nodup

/-- The loop returns, and the entries that it cleared are some of those that the start leads to,
none of them below 2. -/
def FreesOnly (st : FatFsState) (d : Disk) (start : Nat) : Prop :=
  ∃ rounds r d', ∃ cs : List Nat,
    exec (Disk.device VfsError) (st.freeChainFrom rounds start) d = some (r, d') ∧
    (∀ c ∈ cs, 2 ≤ c ∧ Relation.ReflTransGen (st.Links d) start c) ∧
    ∀ k < st.bpb.numFats, ∀ c, st.InTable c → st.entryBytes d' k c =
      if c ∈ cs then Bytes.ofNat 4 0 else st.entryBytes d k c

/-! ## One round -/

/-- The disk with the entry of a cluster cleared in all copies. -/
def clearEntry (st : FatFsState) (d : Disk) (c : Nat) : Disk :=
  (List.range st.bpb.numFats).foldl (fun d idx =>
    d.put (st.fatOffset + c * 4 + idx * st.fatSize) (Bytes.ofNat 4 (0 % 2 ^ 28))) d

theorem entryBytes_clearEntry (hc : st.InTable c) (hk : k < st.bpb.numFats) (hc' : st.InTable c') :
    st.entryBytes (st.clearEntry d c) k c' = if c' = c then Bytes.ofNat 4 0 else st.entryBytes d k c' := by
  rw [clearEntry, entryBytes_foldl hc (Bytes.length_ofNat _ _) _ hc']
  simp [hk]

theorem fat_clearEntry (hcopies : 0 < st.bpb.numFats) (hc : st.InTable c)
    (hc' : st.InTable c') : st.fat (st.clearEntry d c) c' = if c' = c then 0 else st.fat d c' := by
  rw [fat, entryBytes_clearEntry hc hcopies hc']
  split <;> rfl

theorem exec_freeChainFrom_succ (hc : st.InTable c) (n : Nat) :
    exec (Disk.device VfsError) (st.freeChainFrom (n + 1) c) d =
      if 0x0FFFFFF8 ≤ st.fat d c then some (.ok (), st.clearEntry d c)
      else exec (Disk.device VfsError) (st.freeChainFrom n (st.fat d c)) (st.clearEntry d c) := by
  simp only [freeChainFrom, nextCluster, exec_bind, exec_readFatEntry hc, exec_writeFatEntry_eq hc,
    Outcome.andThen_ok, exec_pure]
  by_cases hend : 0x0FFFFFF8 ≤ st.fat d c
  · rw [if_pos hend, if_pos hend]
    rfl
  · rw [if_neg hend, if_neg hend]
    rfl

theorem exec_freeChainFrom_beyond (hc : ¬ st.InTable c) (n : Nat) :
    exec (Disk.device VfsError) (st.freeChainFrom (n + 1) c) d = some (.error .Invalid, d) := by
  have hoff : st.fatEntryOffset c = none := by
    unfold InTable at hc
    refine if_pos ?_
    omega
  simp only [freeChainFrom, nextCluster, readFatEntry, hoff]
  rfl

/-! ## The loop -/

theorem reaches_of_isChain (h : (c :: cs).IsChain (st.Links d)) :
    ∀ x ∈ c :: cs, Relation.ReflTransGen (st.Links d) c x := by
  induction cs generalizing c with
  | nil => simp [Relation.ReflTransGen.refl]
  | cons next cs ih =>
    obtain ⟨hlink, hrest⟩ := isChain_cons_cons.mp h
    exact forall_mem_cons.mpr ⟨.refl, fun x hx => .head hlink (ih hrest x hx)⟩

/-- A chain that ends depends on the entries of its clusters. -/
theorem Ending.congr (h : Ending st d cs) (hfat : ∀ x ∈ cs, st.InTable x → st.fat d' x = st.fat d x) :
    Ending st d' cs := by
  refine ⟨h.clusters, ?_, fun x hx hin => ?_, h.nodup⟩
  · refine h.links.imp_of_mem_imp fun x y hx _ hlink => ⟨hlink.1, ?_, hlink.2.2⟩
    rw [hfat x hx hlink.1, hlink.2.1]
  · rw [hfat x (mem_of_getLast? hx) hin]
    exact h.last x hx hin

/-- A cluster that is free does not lie on a chain that ends. -/
theorem Ending.not_mem (h : Ending st d cs) (hc : st.InTable c) (hfree : st.fat d c = 0) : c ∉ cs := by
  intro hmem
  obtain ⟨pre, post, rfl⟩ := append_of_mem hmem
  cases post with
  | nil =>
    have hlast := h.last c (by simp) hc
    omega
  | cons next post =>
    obtain ⟨-, hnext, -⟩ := (isChain_cons_cons.mp (isChain_append.mp h.links).2.1).1
    have hle := h.clusters next (by simp)
    omega

/-- A chain that ends is freed. -/
theorem Ending.exec_freeChainFrom (hcopies : 0 < st.bpb.numFats) (h : Ending st d (c :: cs)) :
    ∃ r d', exec (Disk.device VfsError) (st.freeChainFrom (cs.length + 1) c) d = some (r, d') ∧
      ∀ k < st.bpb.numFats, ∀ c', st.InTable c' → st.entryBytes d' k c' =
        if c' ∈ c :: cs then Bytes.ofNat 4 0 else st.entryBytes d k c' := by
  induction cs generalizing c d with
  | nil =>
    by_cases hc : st.InTable c
    · refine ⟨.ok (), st.clearEntry d c, ?_, fun k hk c' hc' => ?_⟩
      · rw [length_nil, exec_freeChainFrom_succ hc, if_pos (h.last c (by simp) hc)]
      · simpa using entryBytes_clearEntry hc hk hc'
    · refine ⟨.error .Invalid, d, exec_freeChainFrom_beyond hc _, fun k hk c' hc' => ?_⟩
      rw [if_neg]
      rintro hmem
      exact hc (mem_singleton.mp hmem ▸ hc')
  | cons next cs ih =>
    obtain ⟨⟨hc, rfl, hlt⟩, hlinks⟩ := isChain_cons_cons.mp h.links
    obtain ⟨hnot, hnodup⟩ := nodup_cons.mp h.nodup
    -- The rest of the chain is not touched.
    have htail : Ending st d (st.fat d c :: cs) :=
      ⟨fun x hx => h.clusters x (mem_cons_of_mem _ hx), hlinks,
        fun x hx => h.last x (by simpa using hx), hnodup⟩
    have hrest : Ending st (st.clearEntry d c) (st.fat d c :: cs) := htail.congr fun x hx hin => by
      rw [fat_clearEntry hcopies hc hin, if_neg]
      rintro rfl
      exact hnot hx
    obtain ⟨r, d', hrun, hentries⟩ := ih hrest
    refine ⟨r, d', ?_, fun k hk c' hc' => ?_⟩
    · rw [length_cons, exec_freeChainFrom_succ hc, if_neg (by omega)]
      exact hrun
    · rw [hentries k hk c' hc', entryBytes_clearEntry hc hk hc']
      by_cases heq : c' = c <;> simp [heq]

/-- A run that returns has gone along a chain that ends, or cleared an entry below 2. -/
theorem ending_or_touched (hcopies : 0 < st.bpb.numFats) (hsize : 8 ≤ st.fatSize)
    (hrun : exec (Disk.device VfsError) (st.freeChainFrom n c) d = some (r, d')) :
    (∀ x, st.InTable x → st.fat d' x = st.fat d x ∨ st.fat d' x = 0) ∧
      ((∃ cs, Ending st d (c :: cs)) ∨
        ∃ x < 2, st.InTable x ∧ st.fat d x ≠ 0 ∧ st.fat d' x = 0) := by
  induction n generalizing c d with
  | zero => cases hrun
  | succ n ih =>
    by_cases hc : st.InTable c
    rotate_left
    · rw [exec_freeChainFrom_beyond hc] at hrun
      cases hrun
      refine ⟨fun _ _ => .inl rfl, .inl ⟨[], by simp; unfold InTable at hc; omega, .singleton _, ?_, by simp⟩⟩
      rintro _ ⟨⟩ hin
      exact absurd hin hc
    have hfat : ∀ x, st.InTable x → st.fat (st.clearEntry d c) x = if x = c then 0 else st.fat d x :=
      fun x hx => fat_clearEntry hcopies hc hx
    rw [exec_freeChainFrom_succ hc] at hrun
    split at hrun
    · next hend =>
      cases hrun
      refine ⟨fun x hx => ?_, ?_⟩
      · rw [hfat x hx]
        split
        · exact .inr rfl
        · exact .inl rfl
      · by_cases hle : 2 ≤ c
        · refine .inl ⟨[], by simpa, .singleton _, ?_, by simp⟩
          rintro _ ⟨⟩ _
          exact hend
        · exact .inr ⟨c, by omega, hc, by omega, by rw [hfat c hc, if_pos rfl]⟩
    · next hend =>
      obtain ⟨hmono, hcases⟩ := ih hrun
      have hmono' : ∀ x, st.InTable x → st.fat d' x = st.fat d x ∨ st.fat d' x = 0 := by
        intro x hx
        rcases hmono x hx with heq | hzero
        · rw [heq, hfat x hx]
          split
          · exact .inr rfl
          · exact .inl rfl
        · exact .inr hzero
      refine ⟨hmono', ?_⟩
      rcases hcases with ⟨cs, h⟩ | ⟨x, hlt, hx, hne, hzero⟩
      · have hnot := h.not_mem hc (by rw [hfat c hc, if_pos rfl])
        have htail : Ending st d (st.fat d c :: cs) := h.congr fun x hx hin => by
          rw [hfat x hin, if_neg]
          rintro rfl
          exact hnot hx
        have hnext := h.clusters (st.fat d c) mem_cons_self
        by_cases hle : 2 ≤ c
        · exact .inl ⟨st.fat d c :: cs, forall_mem_cons.mpr ⟨hle, h.clusters⟩,
            isChain_cons_cons.mpr ⟨⟨hc, rfl, by omega⟩, htail.links⟩,
            fun x hx => htail.last x (by simpa using hx), nodup_cons.mpr ⟨hnot, h.nodup⟩⟩
        · refine .inr ⟨c, by omega, hc, by omega, ?_⟩
          rcases hmono c hc with heq | hzero
          · rw [heq, hfat c hc, if_pos rfl]
          · exact hzero
      · rw [hfat x hx] at hne
        split at hne
        · exact absurd rfl hne
        · exact .inr ⟨x, hlt, hx, hne, hzero⟩

theorem FreesOnly.ending (hcopies : 0 < st.bpb.numFats) (hsize : 8 ≤ st.fatSize)
    (h : st.FreesOnly d c) : ∃ cs, Ending st d (c :: cs) := by
  obtain ⟨n, r, d', cs, hrun, hcs, hentries⟩ := h
  refine (ending_or_touched hcopies hsize hrun).2.resolve_right ?_
  rintro ⟨x, hlt, hx, hne, hzero⟩
  have hnot : x ∉ cs := fun hmem => absurd (hcs x hmem).1 (by omega)
  rw [fat, hentries 0 hcopies x hx, if_neg hnot] at hzero
  exact hne hzero

/-- `free_chain` is confined to its chain exactly if the chain ends. -/
theorem freesOnly_iff (hcopies : 0 < st.bpb.numFats) (hsize : 8 ≤ st.fatSize) (start : Nat) :
    st.FreesOnly d start ↔ ∃ cs, Ending st d (start :: cs) := by
  refine ⟨fun h => h.ending hcopies hsize, ?_⟩
  rintro ⟨cs, h⟩
  obtain ⟨r, d', hrun, hentries⟩ := h.exec_freeChainFrom hcopies
  exact ⟨_, r, d', start :: cs, hrun,
    fun c hc => ⟨h.clusters c hc, reaches_of_isChain h.links c hc⟩, hentries⟩

theorem freesOnly_single : dirVolume.FreesOnly (dirDisk []) 2 := by
  refine (freesOnly_iff (by decide) (by decide) 2).mpr ⟨[], by decide, .singleton _, ?_, by simp⟩
  rintro _ ⟨⟩ _
  decide +kernel

/-- A cluster that leads to itself, and the mark that a table starts with. -/
def loopDisk : Disk :=
  Disk.put (Disk.put (fun _ => 0) 0 (Bytes.ofNat 4 0x0FFFFFF8)) 8 (Bytes.ofNat 4 2)

/-- The loop comes to cluster 0 and clears the mark. -/
theorem loopDisk_touched : ¬ dirVolume.FreesOnly loopDisk 2 ∧
    (exec (Disk.device VfsError) (dirVolume.freeChain 2) loopDisk).map
      (fun r => (r.1.toBool, dirVolume.fat r.2 0)) = some (true, 0) ∧
    dirVolume.fat loopDisk 0 = 0x0FFFFFF8 := by
  refine ⟨fun h => ?_, by decide +kernel, by decide +kernel⟩
  obtain ⟨cs, hcs⟩ := h.ending (by decide) (by decide)
  have hself : dirVolume.fat loopDisk 2 = 2 := by decide +kernel
  cases cs with
  | nil => exact absurd (hcs.last 2 rfl (by unfold InTable; decide)) (by rw [hself]; decide)
  | cons next cs =>
    obtain ⟨-, hnext, -⟩ := (isChain_cons_cons.mp hcs.links).1
    exact (nodup_cons.mp hcs.nodup).1 (by simp [← hnext, hself])

end FatFsState

end BoruixKernel
