import BoruixKernel.Fs.NodeFrame

/-!
# Mounting and unmounting

`vfs_mount` gives the mount point the number of the filesystem; the filesystem gives it a
handle, makes it a directory and adds children.  If mounting fails, the number and the mount flag
are put back and nothing else; `vfs_unmount` drops the handle and clears the flag, and puts
nothing back.  It does not look at the flag before.

`vfsMount_vfsUnmount_iff` says when mounting and unmounting are inverse in spite of that.
-/

namespace BoruixKernel

open Function List Outcome

variable {ω : Type}

/-- The handles are addresses that have been given out. -/
def Vfs.HandlesGiven (s : Vfs ω) : Prop := ∀ n h, (s.nodes n).handle = some h → h < s.nextHandle

/-! ## The mount point -/

/-- What a filesystem makes of the mount point: a directory with a new handle. -/
structure Mounted (m : NodeId) (s s' : Vfs ω) : Prop where
  next : s.next ≤ s'.next
  fsid : (s'.nodes m).fsid = (s.nodes m).fsid
  nodeType : (s'.nodes m).nodeType = .Dir
  handle : ∃ h, s.nextHandle ≤ h ∧ (s'.nodes m).handle = some h

/-- What it leaves of it after unmounting. -/
structure Unmounted (m : NodeId) (s s' : Vfs ω) : Prop where
  fsid : (s'.nodes m).fsid = (s.nodes m).fsid
  nodeType : (s'.nodes m).nodeType = (s.nodes m).nodeType
  children : (s'.nodes m).children = (s.nodes m).children
  handle : (s'.nodes m).handle = none

/-- What the VFS can count on for a filesystem.  `Own` is what `unmount` needs to drop the
handle. -/
structure MountSpec (ops : VfsOps ω) (Own : NodeId → Vfs ω → Prop) (m : NodeId) : Prop where
  calling : ∀ s fsid, Own m s → Own m (s.calling m fsid)
  mount : ∀ src s, s.HandlesGiven → m < s.next → (ops.mount src m s).Post fun r s' =>
    match r with
    | .ok () => Mounted m s s' ∧ Own m s'
    | .error _ => KeptNode m s s' ∨ Mounted m s s'
  unmount : ∀ s, (ops.unmount m s).Post fun r s' => r = .ok () ∧ (Own m s → Unmounted m s s')

section Filesystems

variable {m n : NodeId} {s s' s₁ : Vfs ω}

theorem Mounted.kept (h : Mounted m s s₁) (hm : m < s.next) (hk : KeepsNode m s₁ s') : Mounted m s s' := by
  have hkept := hk (hm.trans_le h.next)
  refine ⟨h.next.trans hkept.next, hkept.fsid.trans h.fsid, hkept.nodeType.trans h.nodeType, ?_⟩
  rw [hkept.handle]
  exact h.handle

theorem Mounted.after (hk : KeptNode m s s₁) (h : Mounted m s₁ s') : Mounted m s s' := by
  obtain ⟨a, hle, hhandle⟩ := h.handle
  exact ⟨hk.next.trans h.next, h.fsid.trans hk.fsid, h.nodeType, a, hk.nextHandle.trans hle, hhandle⟩

theorem fill_self (value : ω) (type : VfsNodeType) : (s.fill m value type).nodes m =
    { s.nodes m with handle := some s.nextHandle, nodeType := type } := by
  simp [Vfs.fill, Vfs.setHandle, Vfs.modify]

theorem Mounted.fill (value : ω) : Mounted m s (s.fill m value .Dir) := by
  refine ⟨Nat.le_refl _, ?_, ?_, s.nextHandle, Nat.le_refl _, ?_⟩ <;> rw [fill_self]

theorem freeHandle_self : (s.freeHandle m).nodes m = { s.nodes m with handle := none } := by
  rw [Vfs.freeHandle]
  split
  · next h => rw [← h]
  · exact update_self _ _ _

theorem Unmounted.freeHandle : Unmounted m s (s.freeHandle m) := by
  refine ⟨?_, ?_, ?_, ?_⟩ <;> rw [freeHandle_self]

/-- The three filesystems that drop the handle of the mount point and nothing else. -/
theorem MountSpec.of_fill {ops : VfsOps ω} (build : Vfs ω → Vfs ω)
    (hmount : ∀ src s, ops.mount src m s = some (.ok (), build (s.fill m value .Dir)))
    (hbuild : ∀ s, KeepsNode m s (build s))
    (hunmount : ∀ s, ops.unmount m s = some (.ok (), s.freeHandle m)) :
    MountSpec ops (fun _ _ => True) m where
  calling _ _ _ := trivial
  mount src s _ hm := by
    rw [hmount]
    exact post_some ⟨(Mounted.fill value).kept hm (hbuild _), trivial⟩
  unmount s := by
    rw [hunmount]
    exact post_some ⟨rfl, fun _ => .freeHandle⟩

/-! ## devtmpfs, sysfs and procfs -/

theorem KeepsNode.appendFill (p : NodeId) (name : Str) (value : ω) (type : VfsNodeType) :
    KeepsNode m s ((vfsChildAppend p name s).2.fill s.next value type) := fun hm =>
  (KeepsNode.append p name).trans (.fill (Nat.ne_of_lt hm) value type) hm

theorem KeepsNode.foldl {α : Type} {f : Vfs ω → α → Vfs ω} (hf : ∀ s a, KeepsNode m s (f s a))
    (l : List α) (s : Vfs ω) : KeepsNode m s (l.foldl f s) := by
  induction l generalizing s with
  | nil => exact .refl m s
  | cons a l ih => exact (hf s a).trans (ih _)

theorem mountSpec_devtmpfs (P : Boxed (DevTmpHandle δ) ω) (D : Boxed δ ω) (hub : DeviceTable δ) :
    MountSpec (Devtmpfs.ops P D hub) (fun _ _ => True) m := by
  refine .of_fill (Devtmpfs.createDevices P hub m) (fun _ _ => rfl) (fun s => ?_) fun _ => rfl
  refine KeepsNode.foldl (fun s entry => ?_) hub s
  rcases entry with _ | ⟨info, _ | dev, driver⟩
  · exact .refl m s
  · exact .refl m s
  · change KeepsNode m s (Devtmpfs.createDeviceNode P m info.name dev s)
    rw [Devtmpfs.createDeviceNode]
    split
    · exact .refl m s
    · exact .appendFill _ _ _ _

section Sysfs

variable (P : Boxed SysHandle ω)

theorem KeepsNode.appendDir (p : NodeId) (name : Str) (kind : SysDirKind) :
    KeepsNode m s (Sysfs.appendDir P p name kind s).2 := .appendFill _ _ _ _

theorem KeepsNode.appendDirs (p : NodeId) (dirs : List (Str × SysDirKind)) :
    KeepsNode m s (Sysfs.appendDirs P p dirs s) :=
  .foldl (fun _ _ => .appendDir P _ _ _) dirs s

theorem KeepsNode.prebuild (root : NodeId) : KeepsNode m s (Sysfs.prebuild P root s) := by
  repeat' first
    | exact .refl m s
    | refine KeepsNode.trans ?_ (.appendDirs P _ _)
    | refine KeepsNode.trans ?_ (.appendDir P _ _ _)

theorem KeepsNode.ensureSymlink (p : NodeId) (name target : Str) :
    KeepsNode m s (Sysfs.ensureSymlink P p name target s) := by
  rw [Sysfs.ensureSymlink]
  split
  · exact .refl m s
  · exact fun hm => (KeepsNode.append p name).trans (.setSymlink P (Nat.ne_of_lt hm) target) hm

theorem KeepsNode.ensureSymlinkIn (p : Option NodeId) (name target : Str) :
    KeepsNode m s (Sysfs.ensureSymlinkIn P p name target s) := by
  cases p with
  | none => exact .refl m s
  | some p => exact .ensureSymlink P p name target

theorem KeepsNode.populateDevice (dirs : Sysfs.SysDirs) (entry : Option (HubDevice δ)) :
    KeepsNode m s (Sysfs.populateDevice P dirs s entry) := by
  rcases entry with _ | ⟨info, dev, driver⟩
  · exact .refl m s
  have hfile : KeepsNode m s (Sysfs.ensureDeviceFile P dirs.devices info driver s) := by
    rw [Sysfs.ensureDeviceFile]
    split
    · exact .refl m s
    · exact .appendFill _ _ _ _
  rw [Sysfs.populateDevice]
  cases info.bus
  all_goals
    refine KeepsNode.trans (KeepsNode.trans ?_ (.ensureSymlinkIn P _ _ _)) (.ensureSymlinkIn P _ _ _)
    split
    · exact hfile.trans (.ensureSymlink P _ _ _)
    · exact hfile.trans (.ensureSymlink P _ _ _)
    · exact hfile

theorem mountSpec_sysfs (hub : DeviceTable δ) :
    MountSpec (Sysfs.ops P hub) (fun _ _ => True) m := by
  refine .of_fill (fun s => Sysfs.populateSysfs P hub m (Sysfs.prebuild P m s))
    (fun _ _ => rfl) (fun s => (KeepsNode.prebuild P m).trans ?_) fun _ => rfl
  rw [Sysfs.populateSysfs]
  split
  · exact .refl m _
  · exact .foldl (fun _ _ => .populateDevice P _ _) hub _

end Sysfs

theorem mountSpec_procfs (P : Boxed ProcHandle ω) (texts : ProcTexts) :
    MountSpec (Procfs.ops P texts) (fun _ _ => True) m := by
  have hfile : ∀ {s : Vfs ω} {name : Str} {kind : ProcKind}, KeepsNode m s (Procfs.appendFile P m name kind s) :=
    .appendFill _ _ _ _
  have hself : ∀ {s : Vfs ω} {name : Str},
      KeepsNode m s (Procfs.setSelf P texts s.next (vfsChildAppend m name s).2) := fun hm =>
    (KeepsNode.append m _).trans ((KeepsNode.fill (Nat.ne_of_lt hm) _ _).trans
      (.modify_other (Nat.ne_of_lt hm) _)) hm
  refine .of_fill (Procfs.appendNodes P texts m) (fun _ _ => rfl) (fun s => ?_) fun _ => rfl
  rw [Procfs.appendNodes]
  exact ((hfile.trans hfile).trans hfile).trans hself

/-! ## tmpfs and FatFs

Their walk over the tree drops the handles one by one. -/

/-- A walk over a tree, the children first. -/
def walkWith (f : NodeId → Vfs ω → Vfs ω) : Nat → NodeId → Vfs ω → Option (Vfs ω)
  | 0, _, _ => none
  | fuel + 1, n, s => ((s.nodes n).children.foldlM (fun s c => walkWith f fuel c s) s).map (f n)

/-- What every step keeps holds when the node where the walk started comes last. -/
theorem walkWith_last {I : Vfs ω → Prop} (hf : ∀ n s, I s → I (f n s)) (hs : I s)
    (hrun : walkWith f fuel n s = some s') : ∃ s₁, I s₁ ∧ s' = f n s₁ := by
  induction fuel generalizing n s s' with
  | zero => cases hrun
  | succ fuel ih =>
    rw [walkWith, Option.map_eq_some_iff] at hrun
    obtain ⟨s₁, hfold, rfl⟩ := hrun
    refine ⟨s₁, ?_, rfl⟩
    generalize (s.nodes n).children = cs at hfold
    induction cs generalizing s with
    | nil =>
      cases hfold
      exact hs
    | cons c cs ihc =>
      rw [foldlM_cons] at hfold
      obtain ⟨s2, hwalk, hrest⟩ := Option.bind_eq_some_iff.mp hfold
      obtain ⟨s3, hs3, rfl⟩ := ih hs hwalk
      exact ihc (hf c s3 hs3) hrest

theorem tmpfs_walk_eq (P : Boxed TmpfsFile ω) (fsid fuel : Nat) :
    Tmpfs.walk P fsid fuel n s = walkWith (fun n s => Tmpfs.release P n (s.calling n fsid)) fuel n s := by
  induction fuel generalizing n s with
  | zero => rfl
  | succ fuel ih => simp [Tmpfs.walk, walkWith, ih]

theorem fatfs_walk_eq (fsid fuel : Nat) :
    Fatfs.walk fsid fuel n s = walkWith (fun n s => (s.calling n fsid).freeHandle n) fuel n s := by
  induction fuel generalizing n s with
  | zero => rfl
  | succ fuel ih => simp [Fatfs.walk, walkWith, ih]

/-- The node is the same but for its handle. -/
def SameButHandle (m : NodeId) (s s' : Vfs ω) : Prop :=
  s'.nodes m = { s.nodes m with handle := (s'.nodes m).handle }

theorem SameButHandle.trans (h : SameButHandle m s s₁) (h' : SameButHandle m s₁ s') :
    SameButHandle m s s' := by
  rw [SameButHandle, h', h]

theorem SameButHandle.calling (fsid : Nat) : SameButHandle m s (s.calling n fsid) := by
  rw [SameButHandle, Vfs.calling_nodes]

theorem freeHandle_other (hn : m ≠ n) : (s.freeHandle n).nodes m = s.nodes m := by
  rw [Vfs.freeHandle]
  split
  · rfl
  · exact update_of_ne hn _ _

theorem SameButHandle.freeHandle : SameButHandle m s (s.freeHandle n) := by
  by_cases hn : m = n
  · subst hn
    rw [SameButHandle, freeHandle_self]
  · rw [SameButHandle, freeHandle_other hn]

theorem SameButHandle.unmounted (h : SameButHandle m s s') (hhandle : (s'.nodes m).handle = none) :
    Unmounted m s s' := by
  refine ⟨?_, ?_, ?_, hhandle⟩ <;> rw [h]

section Tmpfs

variable (P : Boxed TmpfsFile ω)

/-- The node has a box of its own with one link, or none any more. -/
structure OwnFile (m : NodeId) (h : Handle) (s : Vfs ω) : Prop where
  others : ∀ n, n ≠ m → (s.nodes n).handle ≠ some h
  file : (s.nodes m).handle = none ∨
    (s.nodes m).handle = some h ∧ ∃ file : TmpfsFile, s.heap h = some (P.box file) ∧ file.linkCount ≤ 1

variable {P}

theorem OwnFile.calling (hown : OwnFile P m h s) (fsid : Nat) : OwnFile P m h (s.calling n fsid) := by
  refine ⟨?_, ?_⟩
  · rw [Vfs.calling_nodes]
    exact hown.others
  · rw [Vfs.calling_nodes, Vfs.calling_heap]
    exact hown.file

theorem tmpfs_getHandle_ok (hget : Tmpfs.getHandle P n s = .ok (h', file)) :
    (s.nodes n).handle = some h' ∧ (s.heap h').bind P.unbox = some file := by
  rw [Tmpfs.getHandle] at hget
  split at hget
  · cases hget
  · next hhandle =>
    split at hget
    · cases hget
    · next hheap =>
      cases hget
      exact ⟨hhandle, hheap⟩

theorem freeHandle_heap (hh : (s.nodes n).handle = some h') :
    (s.freeHandle n).heap = update s.heap h' none := by
  rw [Vfs.freeHandle, hh]

theorem OwnFile.release_self (hown : OwnFile P m h s) : ((Tmpfs.release P m s).nodes m).handle = none := by
  rcases hown.file with hnone | ⟨hhandle, file, hheap, hlinks⟩
  · simp [Tmpfs.release, Tmpfs.getHandle, hnone]
  · simp [Tmpfs.release, Tmpfs.getHandle, hhandle, hheap, Option.bind_some, P.unbox_box, if_neg (Nat.not_lt.mpr hlinks), freeHandle_self]

theorem OwnFile.release (hown : OwnFile P m h s) (n : NodeId) : OwnFile P m h (Tmpfs.release P n s) := by
  by_cases hn : n = m
  · subst hn
    refine ⟨fun k hk => ?_, .inl hown.release_self⟩
    rw [Tmpfs.release]
    split
    · exact hown.others k hk
    · split
      · exact hown.others k hk
      · rw [freeHandle_other hk]
        exact hown.others k hk
  · rw [Tmpfs.release]
    split
    · exact hown
    · next h' file hget =>
      obtain ⟨hhandle, -⟩ := tmpfs_getHandle_ok hget
      have hne : h ≠ h' := fun heq => hown.others n hn (by rw [hhandle, heq])
      split
      · refine ⟨hown.others, ?_⟩
        simp only [update_of_ne hne]
        exact hown.file
      · refine ⟨fun k hk => ?_, ?_⟩
        · by_cases hkn : k = n
          · subst hkn
            rw [freeHandle_self]
            exact Option.some_ne_none h |>.symm
          · rw [freeHandle_other hkn]
            exact hown.others k hk
        · rw [freeHandle_other (Ne.symm hn), freeHandle_heap hhandle, update_of_ne hne]
          exact hown.file

theorem SameButHandle.release : SameButHandle m s (Tmpfs.release P n s) := by
  rw [Tmpfs.release]
  split
  · rfl
  · split
    · rfl
    · exact .freeHandle

theorem mountSpec_tmpfs (fsid : Nat) :
    MountSpec (Tmpfs.ops P fsid) (fun m s => ∃ h, OwnFile P m h s) m where
  calling s fsid := by
    rintro ⟨h, hown⟩
    exact ⟨h, hown.calling fsid⟩
  mount src s hgiven hm := by
    refine post_some ⟨.fill _, s.nextHandle, fun k hk heq => ?_, .inr ⟨?_, .new .Dir, ?_, ?_⟩⟩
    · have hsame : ((s.setHandle m (P.box (.new .Dir))).modify m
          ({ · with nodeType := .Dir })).nodes k = s.nodes k := by
        simp [Vfs.setHandle, Vfs.modify, update_of_ne hk]
      rw [hsame] at heq
      exact Nat.lt_irrefl _ (hgiven k _ heq)
    · simp [Vfs.setHandle, Vfs.modify, update_self]
    · exact update_self _ _ _
    · exact Nat.le_refl 1
  unmount s := by
    intro r s' hrun
    obtain ⟨s₁, hwalk, ⟨⟩⟩ := Option.map_eq_some_iff.mp hrun
    rw [tmpfs_walk_eq] at hwalk
    refine ⟨rfl, ?_⟩
    rintro ⟨h, hown⟩
    obtain ⟨s2, ⟨hsame, hown2⟩, rfl⟩ := walkWith_last
      (I := fun s₁ => SameButHandle m s s₁ ∧ OwnFile P m h s₁)
      (fun n s₁ hs1 => ⟨(hs1.1.trans (.calling fsid)).trans .release, (hs1.2.calling fsid).release n⟩)
      ⟨rfl, hown⟩ hwalk
    exact ((hsame.trans (.calling fsid)).trans .release).unmounted (hown2.calling fsid).release_self

end Tmpfs

section Fatfs

variable {reg : Registry ω} (P : Boxed FatNode ω)

theorem mountSpec_fatfs (hreg : ∀ fs ∈ reg, OpsKeep m fs.ops) (depth fsid : Nat) :
    MountSpec (Fatfs.ops reg depth P fsid) (fun _ _ => True) m where
  calling _ _ _ := trivial
  mount src s _ hm := by
    cases src with
    | none => exact post_some (.inl (KeepsNode.refl m s hm))
    | some src =>
      intro r s' hrun
      change (Fatfs.buildState reg depth src s).andThen _ = _ at hrun
      rcases hbuild : Fatfs.buildState reg depth src s with _ | ⟨e | st, s₁⟩
      · rw [hbuild] at hrun
        cases hrun
      · rw [hbuild] at hrun
        cases hrun
        exact .inl (keeps_buildState hreg depth src _ _ hbuild hm)
      · rw [hbuild, andThen_ok] at hrun
        have hkept := keeps_buildState hreg depth src _ _ hbuild hm
        have hroot : Mounted m s (s₁.fill m (P.box ⟨st, st.bpb.rootCluster, 0, true, none⟩) .Dir) :=
          .after hkept (.fill _)
        have hmounted := hroot.kept hm (keeps_populateDir P hreg _ _ _ _ _ _ hrun)
        rcases r with e | ⟨⟩
        · exact .inr hmounted
        · exact ⟨hmounted, trivial⟩
  unmount s := by
    intro r s' hrun
    obtain ⟨s₁, hwalk, ⟨⟩⟩ := Option.map_eq_some_iff.mp hrun
    rw [fatfs_walk_eq] at hwalk
    refine ⟨rfl, fun _ => ?_⟩
    obtain ⟨s2, hsame, rfl⟩ := walkWith_last (I := SameButHandle m s)
      (fun n s₁ hs1 => (hs1.trans (.calling fsid)).trans .freeHandle) rfl hwalk
    refine ((hsame.trans (.calling fsid)).trans .freeHandle).unmounted ?_
    rw [freeHandle_self]

end Fatfs

end Filesystems

/-! ## The registered filesystems -/

variable {e : VfsError}

section Registry

variable (hub : DeviceTable δ) (texts : ProcTexts) (bound : Nat)

theorem kernelRegistry_mountSpec (m : NodeId) :
    ∀ fs ∈ kernelRegistry hub texts bound, ∃ Own, MountSpec fs.ops Own m := by
  have hbase : ∀ fs ∈ baseRegistry hub texts, ∃ Own, MountSpec fs.ops Own m :=
    baseRegistry_forall (Q := fun ops => ∃ Own, MountSpec ops Own m) (fun _ => ⟨_, mountSpec_tmpfs _⟩)
      ⟨_, mountSpec_devtmpfs _ _ _⟩ ⟨_, mountSpec_sysfs _ _⟩ ⟨_, mountSpec_procfs _ _⟩
  intro fs hfs
  cases bound with
  | zero =>
    rcases mem_register hfs with hfs | heq
    · exact hbase fs hfs
    · refine ⟨fun _ _ => True, heq ▸ ⟨fun _ _ _ => trivial, fun _ _ _ _ => ?_, fun _ => ?_⟩⟩
      · exact post_none
      · exact post_none
  | succ bound =>
    rcases mem_register hfs with hfs | heq
    · exact hbase fs hfs
    · exact ⟨_, heq ▸ mountSpec_fatfs _ (kernelRegistry_keep hub texts m bound) _ _⟩

/-- Only mounting a FAT volume can fail. -/
theorem kernelRegistry_mount_fails (hfs : fs ∈ kernelRegistry hub texts (bound + 1))
    (hrun : fs.ops.mount src m s = some (.error e, s')) :
    fs.ops = Fatfs.ops (kernelRegistry hub texts bound) bound KernelBox.fatfsBoxed fs.fsid := by
  rcases mem_append.mp hfs with hfs | hfs
  · have hnone : ∀ fs ∈ baseRegistry hub texts, fs.ops.mount src m s ≠ some (.error e, s') :=
      baseRegistry_forall (Q := fun ops => ops.mount src m s ≠ some (.error e, s')) (fun _ => nofun)
        nofun nofun nofun
    exact (hnone fs hfs hrun).elim
  · rw [mem_singleton.mp hfs]

/-- The numbers of the filesystems are different. -/
theorem kernelRegistry_byId (hfs : fs ∈ kernelRegistry hub texts (bound + 1)) :
    (kernelRegistry hub texts (bound + 1)).getFilesystemById fs.fsid = some fs := by
  rcases mem_append.mp hfs with hfs | hfs
  · simp only [baseRegistry, Registry.register, nil_append, cons_append, mem_cons,
      not_mem_nil, or_false] at hfs
    rcases hfs with rfl | rfl | rfl | rfl <;> rfl
  · rw [mem_singleton.mp hfs]
    rfl

end Registry

/-! ## Mounting and unmounting -/

/-- The fields of a node that mounting is about, the mount flag aside. -/
structure SameNode (a b : VfsNodeMeta) : Prop where
  fsid : b.fsid = a.fsid
  handle : b.handle = a.handle
  nodeType : b.nodeType = a.nodeType
  children : b.children = a.children

/-- The state in which the filesystem gets the mount point. -/
def markMount (fsid : Nat) (m : NodeId) (s : Vfs ω) : Vfs ω :=
  (s.modify m ({ · with fsid, isMount := true })).calling m fsid

section Mark

variable {s : Vfs ω} (fsid : Nat)

theorem markMount_self : (markMount fsid m s).nodes m = { s.nodes m with fsid, isMount := true } := by
  rw [markMount, Vfs.calling_nodes]
  exact update_self _ _ _

theorem markMount_next : (markMount fsid m s).next = s.next := Vfs.calling_next _ _ _

theorem markMount_nextHandle : (markMount fsid m s).nextHandle = s.nextHandle := Vfs.calling_nextHandle _ _ _

theorem Vfs.HandlesGiven.markMount (h : s.HandlesGiven) : (markMount fsid m s).HandlesGiven := by
  intro n a ha
  rw [markMount_nextHandle]
  by_cases hn : n = m
  · subst hn
    rw [markMount_self] at ha
    exact h n a ha
  · have hsame : (BoruixKernel.markMount fsid m s).nodes n = s.nodes n := by
      rw [BoruixKernel.markMount, Vfs.calling_nodes]
      exact update_of_ne hn _ _
    rw [hsame] at ha
    exact h n a ha

variable {reg : Registry ω} {fs : VfsFs ω}

section

variable (hfs : reg.getFilesystem fstype = some fs)

include hfs

theorem vfsMount_eq :
    vfsMount reg src fstype m s = match fs.ops.mount src m (markMount fs.fsid m s) with
      | none => none
      | some (Except.ok (), s₁) => some (Except.ok (), s₁)
      | some (Except.error e, s₁) => some (Except.error e,
          s₁.modify m ({ · with fsid := (s.nodes m).fsid, isMount := (s.nodes m).isMount })) := by
  rw [vfsMount, hfs]
  rfl

theorem vfsMount_eq_ok (hrun : vfsMount reg src fstype m s = some (.ok (), s')) :
    fs.ops.mount src m (markMount fs.fsid m s) = some (.ok (), s') := by
  rw [vfsMount_eq hfs] at hrun
  split at hrun
  · cases hrun
  · next hmount =>
    cases hrun
    exact hmount
  · cases hrun

theorem vfsMount_eq_error (hrun : vfsMount reg src fstype m s = some (.error e, s')) :
    ∃ s₁, fs.ops.mount src m (markMount fs.fsid m s) = some (.error e, s₁) ∧
      s' = s₁.modify m ({ · with fsid := (s.nodes m).fsid, isMount := (s.nodes m).isMount }) := by
  rw [vfsMount_eq hfs] at hrun
  split at hrun
  · cases hrun
  · cases hrun
  · next hmount =>
    cases hrun
    exact ⟨_, hmount, rfl⟩

end

end Mark

section Inverse

variable {δ : Type} (hub : DeviceTable δ) (texts : ProcTexts) (bound : Nat)

/-- Mounting fails before the filesystem touches the mount point: the filesystem is not
known, no device is given, or the device is no FAT volume and looking for it has not added a
child. -/
def FailsEarly (src : Option Str) (fstype : Str) (m : NodeId) (s : Vfs (KernelBox δ)) : Prop :=
  ∀ fs dev, (kernelRegistry hub texts (bound + 1)).getFilesystem fstype = some fs → src = some dev →
    ∃ e s₁, Fatfs.buildState (kernelRegistry hub texts bound) bound dev (markMount fs.fsid m s) =
      some (.error e, s₁) ∧ (s₁.nodes m).children = (s.nodes m).children

variable {s s' : Vfs (KernelBox δ)} {m : NodeId} {src : Option Str} {fstype : Str}

theorem failed_mount_same_iff (hgiven : s.HandlesGiven) (hm : m < s.next)
    (hrun : vfsMount (kernelRegistry hub texts (bound + 1)) src fstype m s = some (.error e, s')) :
    SameNode (s.nodes m) (s'.nodes m) ∧ (s'.nodes m).isMount = (s.nodes m).isMount ↔
      FailsEarly hub texts bound src fstype m s := by
  cases hfs : (kernelRegistry hub texts (bound + 1)).getFilesystem fstype with
  | none =>
    rw [vfsMount, hfs] at hrun
    cases hrun
    refine ⟨fun _ fs dev hfs' => ?_, fun _ => ⟨⟨rfl, rfl, rfl, rfl⟩, rfl⟩⟩
    rw [hfs] at hfs'
    cases hfs'
  | some fs =>
    obtain ⟨s₁, hmount, rfl⟩ := vfsMount_eq_error hfs hrun
    have hops := kernelRegistry_mount_fails hub texts bound (mem_of_find?_eq_some hfs) hmount
    rw [hops] at hmount
    -- The number and the flag are put back; the rest is as the filesystem left it.
    have hself : (s₁.modify m ({ · with fsid := (s.nodes m).fsid, isMount := (s.nodes m).isMount })).nodes m =
        { s₁.nodes m with fsid := (s.nodes m).fsid, isMount := (s.nodes m).isMount } :=
      update_self _ _ _
    rw [hself]
    have hm' : m < (markMount fs.fsid m s).next := by rwa [markMount_next]
    have hkept : KeptNode m (markMount fs.fsid m s) s₁ →
        (s₁.nodes m).handle = (s.nodes m).handle ∧ (s₁.nodes m).nodeType = (s.nodes m).nodeType := by
      intro hkept
      rw [hkept.handle, hkept.nodeType, markMount_self]
      exact ⟨rfl, rfl⟩
    cases src with
    | none =>
      cases hmount
      refine ⟨fun _ fs dev _ hdev => (by cases hdev), fun _ => ?_⟩
      rw [markMount_self]
      exact ⟨⟨rfl, rfl, rfl, rfl⟩, rfl⟩
    | some dev =>
      change (Fatfs.buildState _ _ dev _).andThen _ = _ at hmount
      have hkeep := kernelRegistry_keep hub texts m bound
      rcases hbuild : Fatfs.buildState (kernelRegistry hub texts bound) bound dev
        (markMount fs.fsid m s) with _ | ⟨e' | st, s2⟩
      · rw [hbuild] at hmount
        cases hmount
      · rw [hbuild] at hmount
        cases hmount
        obtain ⟨hhandle, htype⟩ := hkept (keeps_buildState hkeep bound dev _ _ hbuild hm')
        refine ⟨fun h fs' dev' hfs' hdev' => ?_, fun h => ?_⟩
        · rw [hfs] at hfs'
          cases hfs'
          cases hdev'
          exact ⟨_, _, hbuild, h.1.children⟩
        · obtain ⟨e'', s3, hbuild', hchildren⟩ := h fs dev hfs rfl
          rw [hbuild] at hbuild'
          cases hbuild'
          exact ⟨⟨rfl, hhandle, htype, hchildren⟩, rfl⟩
      · -- The volume was found, so the mount point has a handle that was not there before.
        rw [hbuild, andThen_ok] at hmount
        have hroot : Mounted m (markMount fs.fsid m s)
            (s2.fill m (KernelBox.fatfsBoxed.box ⟨st, st.bpb.rootCluster, 0, true, none⟩) .Dir) :=
          .after (keeps_buildState hkeep bound dev _ _ hbuild hm') (.fill _)
        obtain ⟨h, hle, hhandle⟩ := (hroot.kept hm' (keeps_populateDir _ hkeep _ _ _ _ _ _ hmount)).handle
        rw [markMount_nextHandle] at hle
        refine ⟨fun hsame => ?_, fun hearly => ?_⟩
        · have hold := hsame.1.handle.symm.trans hhandle
          exact absurd (hgiven m h hold) (Nat.not_lt.mpr hle)
        · obtain ⟨e'', s3, hbuild', -⟩ := hearly fs dev hfs rfl
          rw [hbuild] at hbuild'
          cases hbuild'

variable {depth : Nat} {path : Str}

/-- A mount and the unmount after it.  The number of the filesystem stays, the node is a
directory without a handle, and the children that were added stay. -/
theorem unmounted_same_iff (hgiven : s.HandlesGiven) (hm : m < s.next)
    (hfs : (kernelRegistry hub texts (bound + 1)).getFilesystem fstype = some fs)
    (hmount : vfsMount (kernelRegistry hub texts (bound + 1)) src fstype m s = some (.ok (), s₁))
    (hpath : vfsOpen (kernelRegistry hub texts (bound + 1)) depth path s₁ = some (.ok m, s₁))
    (hunmount : vfsUnmount (kernelRegistry hub texts (bound + 1)) depth path s₁ = some (r, s2)) :
    SameNode (s.nodes m) (s2.nodes m) ↔ (s.nodes m).fsid = fs.fsid ∧ (s.nodes m).handle = none ∧
      (s.nodes m).nodeType = .Dir ∧ (s₁.nodes m).children = (s.nodes m).children := by
  have hmem := mem_of_find?_eq_some hfs
  obtain ⟨Own, hspec⟩ := kernelRegistry_mountSpec hub texts (bound + 1) m fs hmem
  obtain ⟨hmounted, hown⟩ := hspec.mount src _ (hgiven.markMount fs.fsid) (by rwa [markMount_next]) _ _
    (vfsMount_eq_ok hfs hmount)
  have hfsid : (s₁.nodes m).fsid = fs.fsid := by rw [hmounted.fsid, markMount_self]
  rw [vfsUnmount, hpath, andThen_ok, hfsid, kernelRegistry_byId hub texts bound hmem] at hunmount
  have hun := hspec.unmount (s₁.calling m fs.fsid)
  rcases hres : fs.ops.unmount m (s₁.calling m fs.fsid) with _ | ⟨r', s3⟩
  · simp only [hres, andThen_none] at hunmount
    cases hunmount
  obtain ⟨rfl, hun⟩ := hun _ _ hres
  obtain ⟨hfsid', htype', hchildren', hhandle'⟩ := hun (hspec.calling _ _ hown)
  simp only [hres, andThen_ok] at hunmount
  cases hunmount
  rw [Vfs.calling_nodes] at hfsid' htype' hchildren'
  have hself : (s3.modify m ({ · with isMount := false })).nodes m = { s3.nodes m with isMount := false } :=
    update_self _ _ _
  rw [hself]
  constructor
  · intro h
    exact ⟨h.fsid.symm.trans (hfsid'.trans hfsid), h.handle.symm.trans hhandle',
      h.nodeType.symm.trans (htype'.trans hmounted.nodeType), hchildren'.symm.trans h.children⟩
  · rintro ⟨hf, hh, ht, hc⟩
    exact ⟨(hfsid'.trans hfsid).trans hf.symm, hhandle'.trans hh.symm,
      (htype'.trans hmounted.nodeType).trans ht.symm, hchildren'.trans hc⟩

/-- Unmounting what is no mount point.  The flag is not looked at. -/
theorem unmount_fails_iff
    (hpath : vfsOpen (kernelRegistry hub texts (bound + 1)) depth path s = some (.ok m, s)) :
    (∃ e, vfsUnmount (kernelRegistry hub texts (bound + 1)) depth path s = some (.error e, s)) ↔
      (kernelRegistry hub texts (bound + 1)).getFilesystemById (s.nodes m).fsid = none := by
  rw [vfsUnmount, hpath, andThen_ok]
  cases hfs : (kernelRegistry hub texts (bound + 1)).getFilesystemById (s.nodes m).fsid with
  | none => exact ⟨fun _ => rfl, fun _ => ⟨_, rfl⟩⟩
  | some fs =>
    refine ⟨fun ⟨e, hrun⟩ => ?_, fun h => (by cases h)⟩
    obtain ⟨Own, hspec⟩ := kernelRegistry_mountSpec hub texts (bound + 1) m fs (mem_of_find?_eq_some hfs)
    rcases hres : fs.ops.unmount m (s.calling m fs.fsid) with _ | ⟨r', s₁⟩
    · simp only [hres, andThen_none] at hrun
      cases hrun
    · obtain ⟨rfl, -⟩ := hspec.unmount (s.calling m fs.fsid) _ _ hres
      simp only [hres, andThen_ok] at hrun
      cases hrun

end Inverse

def noTexts : ProcTexts := ⟨[], [], [], fun _ => [], 1⟩

/-- The kernel without devices. -/
def bareRegistry : Registry (KernelBox Unit) := kernelRegistry [] noTexts 2

/-- A sector with a boot record whose root directory is in no cluster. -/
def rootlessVolume : List UInt8 :=
  [0, 0, 0, 0, 0, 0, 0, 0, 0, 0, 0, 1, 0, 1, 0, 0, 0, 0, 0, 0, 0, 0, 1]

/-- A file with the sector, and a directory. -/
def mountCalls : List VfsCall :=
  [.mount none "tmpfs".toList 0, .mkfile "/v".toList, .write 1 0 rootlessVolume, .mkdir "/d".toList]

end BoruixKernel
