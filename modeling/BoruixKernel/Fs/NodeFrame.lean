import BoruixKernel.Fs.KernelFs
import BoruixKernel.Fs.UniquePaths

/-!
# What opening, reading and writing leave of a node

Looking up a path makes new nodes and puts them under others; reading and writing change
boxes and sizes.  The filesystem, the handle, the type and the mount flag of a node that is
there stay as they are, and its children get more at most.  `KeepsNode` says so for one node, and
`OpsKeep` that the operations of a filesystem do it; all registered filesystems do
(`kernelRegistry_keep`).
-/

namespace BoruixKernel

open DeviceProg Function

variable {ω : Type}

/-! ## One node -/

/-- The node has what it had, and perhaps more children. -/
structure KeptNode (m : NodeId) (s s' : Vfs ω) : Prop where
  next : s.next ≤ s'.next
  nextHandle : s.nextHandle ≤ s'.nextHandle
  fsid : (s'.nodes m).fsid = (s.nodes m).fsid
  handle : (s'.nodes m).handle = (s.nodes m).handle
  nodeType : (s'.nodes m).nodeType = (s.nodes m).nodeType
  isMount : (s'.nodes m).isMount = (s.nodes m).isMount

/-- The same if the node is there. -/
def KeepsNode (m : NodeId) (s s' : Vfs ω) : Prop := m < s.next → KeptNode m s s'

section Frame

variable {s s' s₁ : Vfs ω}

theorem KeepsNode.refl (m : NodeId) (s : Vfs ω) : KeepsNode m s s := fun _ =>
  ⟨Nat.le_refl _, Nat.le_refl _, rfl, rfl, rfl, rfl⟩

theorem KeepsNode.trans (h : KeepsNode m s s₁) (h' : KeepsNode m s₁ s') : KeepsNode m s s' := by
  intro hm
  have hk := h hm
  have hk' := h' (hm.trans_le hk.next)
  exact ⟨hk.next.trans hk'.next, hk.nextHandle.trans hk'.nextHandle, hk'.fsid.trans hk.fsid,
    hk'.handle.trans hk.handle, hk'.nodeType.trans hk.nodeType, hk'.isMount.trans hk.isMount⟩

theorem KeepsNode.modify_other (hn : m ≠ n) (f : VfsNodeMeta → VfsNodeMeta) :
    KeepsNode m s (s.modify n f) := by
  have hsame : (s.modify n f).nodes m = s.nodes m := update_of_ne hn _ _
  refine fun _ => ⟨Nat.le_refl _, Nat.le_refl _, ?_, ?_, ?_, ?_⟩ <;> rw [hsame]

/-- A change of the other fields. -/
theorem KeepsNode.modify (n : NodeId)
    (hf : ∀ a, (f a).fsid = a.fsid ∧ (f a).handle = a.handle ∧ (f a).nodeType = a.nodeType ∧
      (f a).isMount = a.isMount) : KeepsNode m s (s.modify n f) := by
  by_cases hn : m = n
  · subst hn
    have hself : (s.modify m f).nodes m = f (s.nodes m) := update_self _ _ _
    obtain ⟨hfsid, hhandle, htype, hmount⟩ := hf (s.nodes m)
    refine fun _ => ⟨Nat.le_refl _, Nat.le_refl _, ?_, ?_, ?_, ?_⟩ <;> rw [hself]
    exacts [hfsid, hhandle, htype, hmount]
  · exact .modify_other hn f

theorem KeepsNode.calling (n : NodeId) (fsid : Nat) : KeepsNode m s (s.calling n fsid) := by
  refine fun _ => ⟨?_, ?_, ?_, ?_, ?_, ?_⟩
  · rw [Vfs.calling_next]
  · rw [Vfs.calling_nextHandle]
  all_goals rw [Vfs.calling_nodes]

theorem KeepsNode.heap (heap : Handle → Option ω) : KeepsNode m s { s with heap } := fun _ =>
  ⟨Nat.le_refl _, Nat.le_refl _, rfl, rfl, rfl, rfl⟩

/-- Of a node that is there, only the children may change. -/
theorem childAppend_old (hm : m ≠ s.next) (p : NodeId) (name : Str) :
    (vfsChildAppend p name s).2.nodes m =
      { s.nodes m with children := ((vfsChildAppend p name s).2.nodes m).children } := by
  by_cases hp : m = p
  · subst hp
    simp [vfsChildAppend, Vfs.modify, update_self, update_of_ne hm]
  · simp [vfsChildAppend, Vfs.modify, update_of_ne hp, update_of_ne hm]

theorem KeepsNode.append (p : NodeId) (name : Str) : KeepsNode m s (vfsChildAppend p name s).2 := by
  intro hm
  refine ⟨Nat.le_succ _, Nat.le_refl _, ?_, ?_, ?_, ?_⟩ <;>
    rw [childAppend_old (Nat.ne_of_lt hm) p name]

theorem KeepsNode.setHandle (hn : m ≠ n) (value : ω) : KeepsNode m s (s.setHandle n value) := by
  have hsame : (s.setHandle n value).nodes m = s.nodes m := update_of_ne hn _ _
  refine fun _ => ⟨Nat.le_refl _, Nat.le_succ _, ?_, ?_, ?_, ?_⟩ <;> rw [hsame]

theorem KeepsNode.fill (hn : m ≠ n) (value : ω) (type : VfsNodeType) :
    KeepsNode m s (s.fill n value type) :=
  (KeepsNode.setHandle hn value).trans (.modify_other hn _)

theorem KeepsNode.free (hn : m ≠ n) : KeepsNode m s (vfsFree n s) := by
  rw [vfsFree]
  refine KeepsNode.trans ?_ (.modify_other hn _)
  cases s.upgrade (s.nodes n).parent with
  | none => exact .refl m s
  | some p => exact .modify p fun a => ⟨rfl, rfl, rfl, rfl⟩

end Frame

/-! ## Calls -/

/-- The call keeps the node. -/
def Keeps {α : Type} (m : NodeId) (s : Vfs ω) (r : VfsResult ω α) : Prop :=
  r.Post fun _ s' => KeepsNode m s s'

/-- What is asked of the operations of a filesystem.  `open` gets a node that is not yet
in use. -/
structure OpsKeep (m : NodeId) (ops : VfsOps ω) : Prop where
  «open» : ∀ parent name n s, m ≠ n → Keeps m s (ops.open parent name n s)
  read : ∀ n offset len s, Keeps m s (ops.read n offset len s)
  write : ∀ n offset buf s, Keeps m s (ops.write n offset buf s)

section Calls

variable {α β : Type} {f : α → Vfs ω → VfsResult ω β}

theorem keeps_done (h : KeepsNode m s s') : Keeps m s (some (res, s')) := Outcome.post_some h

theorem keeps_same : Keeps m s (some (res, s)) := keeps_done (.refl m s)

theorem Keeps.after (h : KeepsNode m s s₁) (hr : Keeps m s₁ r) : Keeps m s r :=
  Outcome.Post.mono hr fun _ _ h' => h.trans h'

theorem Keeps.andThen (hr : Keeps m s r) (hf : ∀ a s, Keeps m s (f a s)) : Keeps m s (r.andThen f) := by
  refine Outcome.Post.andThen hr (fun _ _ h => h) fun a s₁ h => ?_
  exact Keeps.after h (hf a s₁)

variable {reg : Registry ω} (hreg : ∀ fs ∈ reg, OpsKeep m fs.ops)
include hreg

theorem keeps_vfsRead (offset len : Nat) : Keeps m s (vfsRead reg n offset len s) := by
  rw [vfsRead]
  split
  · exact keeps_same
  · next fs hfs =>
    exact Keeps.after (.calling n fs.fsid) ((hreg fs (List.mem_of_find?_eq_some hfs)).read n offset len _)

theorem keeps_vfsWrite (offset : Nat) (buf : List UInt8) : Keeps m s (vfsWrite reg n offset buf s) := by
  rw [vfsWrite]
  split
  · exact keeps_same
  · next fs hfs =>
    exact Keeps.after (.calling n fs.fsid) ((hreg fs (List.mem_of_find?_eq_some hfs)).write n offset buf _)

theorem keeps_vfsLookup (current : NodeId) (part : Str) : Keeps m s (vfsLookup reg current part s) := by
  intro res s' hrun hm
  rw [vfsLookup] at hrun
  split at hrun
  · cases hrun
    exact KeepsNode.refl m s hm
  split at hrun
  · cases hrun
    exact KeepsNode.refl m s hm
  · next fs hfs =>
    have hne : m ≠ s.next := Nat.ne_of_lt hm
    have hcalled : KeepsNode m s (((vfsChildAppend current part s).2.calling current fs.fsid).calling
        s.next fs.fsid) := ((KeepsNode.append current part).trans (.calling _ _)).trans (.calling _ _)
    have hopen := (hreg fs (List.mem_of_find?_eq_some hfs)).open current part s.next
      (((vfsChildAppend current part s).2.calling current fs.fsid).calling s.next fs.fsid) hne
    simp only [show (vfsChildAppend current part s).1 = s.next from rfl] at hrun
    split at hrun
    · cases hrun
    · next hrun' =>
      cases hrun
      exact hcalled.trans (hopen _ _ hrun') hm
    · next hrun' =>
      cases hrun
      exact (hcalled.trans (hopen _ _ hrun')).trans (.free hne) hm
    · next hrun' =>
      cases hrun
      exact (hcalled.trans (hopen _ _ hrun')).trans (.free hne) hm

theorem keeps_vfsOpen (depth : Nat) (path : Str) : Keeps m s (vfsOpen reg depth path s) := by
  have hrule : OpenRule reg (fun _ => True) (fun _ _ => True) (KeepsNode m) (KeepsNode m) := by
    refine ⟨fun _ => ⟨.refl m _, .refl m _⟩, .trans, .trans, id, fun h _ => h, fun _ _ => ?_⟩
    exact (keeps_vfsLookup hreg _ _).mono fun _ _ h => ⟨h, fun _ _ => ⟨h, trivial⟩⟩
  exact (hrule.open (fun _ _ => trivial) depth path trivial).mono fun _ _ h => h.1

/-- A program on a node of the VFS. -/
theorem keeps_exec (p : FatProg α) : Keeps m s (exec (Fatfs.vfsDevice reg n) p s) :=
  exec_post (D := Fatfs.vfsDevice reg n) (KeepsNode.refl m) (fun _ _ _ h h' => h.trans h')
    (fun offset len _ => keeps_vfsRead hreg offset len)
    (fun offset data _ => keeps_vfsWrite hreg offset data) p

end Calls

/-! ## The filesystems -/

theorem opsKeep_never : OpsKeep m (VfsOps.never : VfsOps ω) :=
  ⟨fun _ _ _ _ _ => Outcome.post_none, fun _ _ _ _ => Outcome.post_none,
    fun _ _ _ _ => Outcome.post_none⟩

/-- A write changes the box and the size. -/
theorem KeepsNode.stored (heap : Handle → Option ω) (size : UInt64) :
    KeepsNode m s (Vfs.modify { s with heap } n ({ · with size })) :=
  (KeepsNode.heap heap).trans (.modify n fun _ => ⟨rfl, rfl, rfl, rfl⟩)

theorem opsKeep_tmpfs (P : Boxed TmpfsFile ω) (fsid : Nat) : OpsKeep m (Tmpfs.ops P fsid) where
  «open» _ _ _ _ _ := keeps_same
  read n offset len s := by
    change Keeps m s (Tmpfs.read P n offset len s)
    rw [Tmpfs.read]
    split
    · exact keeps_same
    · split
      · exact keeps_same
      · split <;> exact keeps_same
  write n offset buf s := by
    change Keeps m s (Tmpfs.write P n offset buf s)
    rw [Tmpfs.write]
    split
    · exact keeps_same
    · split
      · exact keeps_same
      · dsimp only
        split
        · exact Outcome.post_none
        · exact keeps_done (.stored _ _)

theorem keeps_withDevice (P : Boxed (DevTmpHandle δ) ω) (D : Boxed δ ω)
    (hk : ∀ dev state, Keeps m s (k dev state)) :
    Keeps m s (Devtmpfs.withDevice P D n s k) := by
  rw [Devtmpfs.withDevice]
  split
  · exact keeps_same
  · split
    · exact keeps_same
    · split
      · exact keeps_same
      · exact hk _ _

theorem opsKeep_devtmpfs (P : Boxed (DevTmpHandle δ) ω) (D : Boxed δ ω) (hub : DeviceTable δ) :
    OpsKeep m (Devtmpfs.ops P D hub) where
  «open» _ _ _ _ _ := keeps_same
  read _ _ _ _ := keeps_withDevice P D fun _ _ => keeps_done (.heap _)
  write _ _ _ _ := keeps_withDevice P D fun _ _ => keeps_done (.heap _)

theorem KeepsNode.setSymlink (P : Boxed SysHandle ω) (hn : m ≠ n) (target : Str) :
    KeepsNode m s (Sysfs.setSymlink P n target s) :=
  (KeepsNode.fill hn _ _).trans (.modify_other hn _)

theorem keeps_openIn (P : Boxed SysHandle ω) (hn : m ≠ n) (dir : SysDirKind) (info : DeviceInfo)
    (driver : Option Str) : Keeps m s (Sysfs.openIn P dir info driver n s) := by
  have hlink : ∀ (c : Prop) [Decidable c] (target : Str), Keeps m s (if c then
      (some (.ok (), Sysfs.setSymlink P n target s) : VfsResult ω Unit) else some (.error .NotFound, s)) := by
    intro c _ target
    split
    · exact keeps_done (.setSymlink P hn target)
    · exact keeps_same
  cases dir
  case Devices => exact keeps_done (.fill hn _ _)
  all_goals first | exact hlink _ _ | exact keeps_same

theorem opsKeep_sysfs (P : Boxed SysHandle ω) (hub : DeviceTable δ) : OpsKeep m (Sysfs.ops P hub) where
  «open» parent name n s hn := by
    change Keeps m s (Sysfs.openEntry P hub parent name n s)
    rw [Sysfs.openEntry]
    split
    · exact keeps_same
    · split
      · exact keeps_same
      · exact keeps_same
      · exact keeps_openIn P hn _ _ _
  read n offset len s := by
    change Keeps m s (Sysfs.read P n offset len s)
    rw [Sysfs.read]
    split
    · exact keeps_same
    · split <;> exact keeps_same
  write n offset buf s := by
    change Keeps m s (Sysfs.write P n offset buf s)
    rw [Sysfs.write]
    split
    · exact keeps_same
    · split
      · exact keeps_same
      · dsimp only
        split
        · exact Outcome.post_none
        · exact keeps_done (.stored _ _)

theorem opsKeep_procfs (P : Boxed ProcHandle ω) (texts : ProcTexts) : OpsKeep m (Procfs.ops P texts) where
  «open» parent name n s hn := by
    have hnode : ∀ {kind : ProcKind} {pid : Option Nat} {type : VfsNodeType},
        Keeps m s (some (.ok (), Procfs.setNode P n kind pid type s) : VfsResult ω Unit) :=
      keeps_done (.fill hn _ _)
    change Keeps m s (Procfs.openEntry P texts parent name n s)
    rw [Procfs.openEntry]
    split
    · exact keeps_same
    · split
      · split_ifs
        · exact hnode
        · exact hnode
        · exact hnode
        · exact keeps_done ((KeepsNode.fill hn _ _).trans (.modify_other hn _))
        · split
          · exact hnode
          · exact keeps_same
      · split_ifs
        · exact hnode
        · exact keeps_same
      · exact keeps_same
  read n offset len s := by
    change Keeps m s (Procfs.read P texts n offset len s)
    rw [Procfs.read]
    split
    · exact keeps_same
    · split <;> exact keeps_same
  write _ _ _ _ := keeps_same

/-! ## FatFs -/

section Fatfs

variable {reg : Registry ω} (P : Boxed FatNode ω)

theorem keeps_withHandle
    (hk : ∀ h node, Keeps m s (k h node)) : Keeps m s (Fatfs.withHandle P n s k) := by
  rw [Fatfs.withHandle]
  split
  · exact keeps_same
  · exact hk _ _

theorem KeepsNode.createNode (parent : NodeId) (name : Str) (node : FatNode) :
    KeepsNode m s (Fatfs.createNode P parent name node s).2 := by
  intro hm
  rw [Fatfs.createNode]
  split
  · exact KeepsNode.refl m s hm
  · have hne : m ≠ s.next := Nat.ne_of_lt hm
    have hfill : KeepsNode m (vfsChildAppend parent name s).2
        (Fatfs.fillNode P s.next node (vfsChildAppend parent name s).2) :=
      (KeepsNode.setHandle hne _).trans (.modify_other hne _)
    exact (KeepsNode.append parent name).trans hfill hm

theorem keeps_foldl {α : Type} {l : List α} {g : α → Vfs ω → VfsResult ω Unit} {r : VfsResult ω Unit}
    (hg : ∀ e s, Keeps m s (g e s)) (hr : Keeps m s r) :
    Keeps m s (l.foldl (fun r e => r.andThen fun _ s => g e s) r) := by
  induction l generalizing r with
  | nil => exact hr
  | cons e l ih => exact ih (hr.andThen fun _ s => hg e s)

variable (hreg : ∀ fs ∈ reg, OpsKeep m fs.ops)
include hreg

theorem keeps_populateDir (st : FatFsState) (levels : Nat) (dir : NodeId) (cluster : Nat) :
    Keeps m s (Fatfs.populateDir reg P st levels dir cluster s) := by
  induction levels generalizing dir cluster s with
  | zero => exact keeps_same
  | succ levels ih =>
    rw [Fatfs.populateDir]
    refine (keeps_exec hreg _).andThen fun entries s => ?_
    refine keeps_foldl (fun e s => ?_) keeps_same
    split
    next n s' hcreate =>
    have hkeep : KeepsNode m s s' := by
      have := KeepsNode.createNode (m := m) (s := s) P dir e.1 e.2
      rwa [hcreate] at this
    split
    · exact Keeps.after hkeep (ih _ _)
    · exact keeps_done hkeep

theorem keeps_buildState (depth : Nat) (src : Str) : Keeps m s (Fatfs.buildState reg depth src s) := by
  have hreplace : ∀ {α : Type} {e : VfsError} {r : VfsResult ω α} {s : Vfs ω}, Keeps m s r →
      Keeps m s (Fatfs.replaceError e r) := by
    intro α e r s hr res s' hrun
    rcases r with _ | ⟨_ | _, _⟩
    · cases hrun
    · cases hrun
      exact hr _ _ rfl
    · exact hr _ _ hrun
  rw [Fatfs.buildState]
  refine (hreplace (keeps_vfsOpen hreg depth src)).andThen fun dev s => ?_
  refine (hreplace (keeps_vfsRead hreg 0 512)).andThen fun sector s => ?_
  split
  · exact keeps_same
  · split <;> exact keeps_same

theorem opsKeep_fatfs (depth fsid : Nat) : OpsKeep m (Fatfs.ops reg depth P fsid) where
  «open» parent name n s hn := by
    refine keeps_withHandle P fun h dir => ?_
    split
    · exact keeps_same
    refine (keeps_exec hreg _).andThen fun entries s => ?_
    split
    · exact keeps_same
    · next node _ =>
      have hfill : KeepsNode m s (Fatfs.fillNode P n node s) :=
        (KeepsNode.setHandle hn _).trans (.modify_other hn _)
      dsimp only
      split
      · exact Keeps.after hfill (keeps_populateDir P hreg _ _ _ _)
      · exact keeps_done hfill
  read n offset len s := keeps_withHandle P fun h node => keeps_exec hreg _
  write n offset buf s := by
    refine keeps_withHandle P fun h node => ?_
    refine (keeps_exec hreg _).andThen fun node' s => ?_
    split
    · exact keeps_same
    · refine Keeps.after (.heap _) ((keeps_exec hreg _).andThen fun _ s => ?_)
      exact keeps_done (.modify n fun _ => ⟨rfl, rfl, rfl, rfl⟩)

end Fatfs

/-! ## The registry -/

theorem mem_register {reg : Registry ω}
    (h : fs ∈ reg.register name ops) : fs ∈ reg ∨ fs.ops = ops (reg.length + 1) := by
  rcases List.mem_append.mp h with hold | hnew
  · exact .inl hold
  · rw [List.mem_singleton.mp hnew]
    exact .inr rfl

/-- What holds of the operations of the four filesystems without a device. -/
theorem baseRegistry_forall {Q : VfsOps (KernelBox δ) → Prop}
    (htmpfs : ∀ fsid, Q (Tmpfs.ops KernelBox.tmpfsBoxed fsid))
    (hdevtmpfs : Q (Devtmpfs.ops KernelBox.devtmpfsBoxed KernelBox.deviceBoxed hub))
    (hsysfs : Q (Sysfs.ops KernelBox.sysfsBoxed hub))
    (hprocfs : Q (Procfs.ops KernelBox.procfsBoxed texts)) :
    ∀ fs ∈ baseRegistry hub texts, Q fs.ops := by
  intro fs hfs
  rcases mem_register hfs with hfs | heq
  · rcases mem_register hfs with hfs | heq
    · rcases mem_register hfs with hfs | heq
      · rcases mem_register hfs with hfs | heq
        · cases hfs
        · exact heq ▸ htmpfs _
      · exact heq ▸ hdevtmpfs
    · exact heq ▸ hsysfs
  · exact heq ▸ hprocfs

theorem kernelRegistry_keep (hub : DeviceTable δ) (texts : ProcTexts) (m : NodeId) (bound : Nat) :
    ∀ fs ∈ kernelRegistry hub texts bound, OpsKeep m fs.ops := by
  have hbase : ∀ fs ∈ baseRegistry hub texts, OpsKeep m fs.ops :=
    baseRegistry_forall (fun _ => opsKeep_tmpfs _ _) (opsKeep_devtmpfs _ _ _) (opsKeep_sysfs _ _)
      (opsKeep_procfs _ _)
  induction bound with
  | zero =>
    intro fs hfs
    rcases mem_register hfs with hfs | heq
    · exact hbase fs hfs
    · exact heq ▸ opsKeep_never
  | succ bound ih =>
    intro fs hfs
    rcases mem_register hfs with hfs | heq
    · exact hbase fs hfs
    · exact heq ▸ opsKeep_fatfs _ ih _ _

end BoruixKernel
