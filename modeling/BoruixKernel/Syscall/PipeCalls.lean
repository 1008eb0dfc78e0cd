import BoruixKernel.Fs.Pipe
import BoruixKernel.Fs.Vfs
import BoruixKernel.Task.FdRefs

/-!
# Pipes as system calls

`sys_pipe`, `sys_read`, `sys_write`, `sys_dup`, `sys_dup2`, `sys_fork` and `sys_close`, from
the descriptor table through the open file and the dispatch of the VFS by the number of the
filesystem.  `init_vfs` registers five filesystems, none of which is that of the pipes; a
pipe end has the number 0, which none has.  So no call of a descriptor reaches `PipeFs`.

A user buffer that `validate_user_range` accepts is given by its bytes or its length, and an
argument says whether it does.  Another argument is what is typed on the keyboard until a
read is served; without any input such a read does not return.
-/

namespace BoruixKernel

open Function Option

/-- What the box of a pipe node holds. -/
structure PipeEnd where
  pipe : Nat
  write : Bool
deriving DecidableEq, Repr

/-- The descriptors of all tasks, the nodes, the pipes, and what has gone to the serial line
and the terminal. -/
structure PipeWorld (ω : Type) where
  fds : FdWorld
  vfs : Vfs ω
  pipes : Nat → PipeInner
  nextPipe : Nat
  serial : List UInt8
  terminal : List UInt8

/-- What a system call returns, and the bytes it puts into the user buffer. -/
structure SysAnswer where
  ret : Int
  bytes : List UInt8
deriving DecidableEq, Repr

def mapFdErr : FdError → Int
  | .NotFound => -20
  | .NoSpace => -21
  | .Invalid => -22
  | .Io => -23

/-- A descriptor or the number of an error. -/
def descriptorAnswer : Except FdError Nat → SysAnswer
  | .ok fd => ⟨fd, []⟩
  | .error e => ⟨mapFdErr e, []⟩

section Registry

variable {ω : Type}

/-- The filesystems that `init_vfs` registers. -/
def initVfsRegistry (tmpfs devtmpfs sysfs procfs fatfs : Nat → VfsOps ω) : Registry ω :=
  ((((Registry.register [] "tmpfs".toList tmpfs).register "devtmpfs".toList devtmpfs).register
    "sysfs".toList sysfs).register "procfs".toList procfs).register "fatfs".toList fatfs

/-- The number 0 is not given out. -/
theorem getFilesystemById_zero (tmpfs devtmpfs sysfs procfs fatfs : Nat → VfsOps ω) :
    (initVfsRegistry tmpfs devtmpfs sysfs procfs fatfs).getFilesystemById 0 = none := rfl

end Registry

inductive PipeCall where
  | pipe (valid : Bool)
  | write (fd : Nat) (valid : Bool) (buf : List UInt8)
  | read (fd : Nat) (valid : Bool) (len : Nat) (typed : List UInt8)
  | dup (fd : Nat)
  | dup2 (oldfd newfd : Nat)
  | fork
  | close (fd : Nat)
deriving DecidableEq, Repr

namespace PipeWorld

variable {ω : Type} (reg : Registry ω) (ends : Boxed PipeEnd ω)

variable (w : PipeWorld ω)

/-! ## The calls -/

def pipefsCreatePair : NodeId × NodeId × PipeWorld ω :=
  let pipe : PipeInner := ⟨.new PipeCapacity pipeCapacity_pos 0, 1, 1⟩
  let r := vfsNodeAlloc "pipe_r".toList w.vfs
  let wr := vfsNodeAlloc "pipe_w".toList r.2
  let v := (wr.2.modify r.1 ({ · with nodeType := .Pipe })).modify wr.1 ({ · with nodeType := .Pipe })
  let v := (v.setHandle r.1 (ends.box ⟨w.nextPipe, false⟩)).setHandle wr.1 (ends.box ⟨w.nextPipe, true⟩)
  (r.1, wr.1, { w with
    vfs := v
    pipes := update w.pipes w.nextPipe pipe
    nextPipe := w.nextPipe + 1 })

/-- `alloc_fd` of a new handle for a node. -/
def allocHandle (task node : Nat) : Option (Except FdError Nat × PipeWorld ω) :=
  ((w.fds.tables task).allocFd 0 w.fds.nextHandle false).map fun (r, t) =>
    (r, { w with fds := w.fds.stored task node 0 r t })

def closeDescriptor (task fd : Nat) : Except FdError Unit × PipeWorld ω :=
  let closed := (w.fds.tables task).closeFd fd w.fds.handles
  (closed.1, { w with fds := w.fds.setTable task closed.2.1 closed.2.2 })

/-- The two descriptors, as `i32`, go to the user buffer; here they are in the answer. -/
def sysPipe (task : Nat) (valid : Bool) : Option ((SysAnswer × Option (Nat × Nat)) × PipeWorld ω) :=
  if !valid then some ((⟨-1, []⟩, none), w)
  else
    let pair := w.pipefsCreatePair ends
    (pair.2.2.allocHandle task pair.1).bind fun
      | (.error e, w) => some ((⟨mapFdErr e, []⟩, none), w)
      | (.ok rfd, w) =>
        (w.allocHandle task pair.2.1).bind fun
          | (.error e, w) => some ((⟨mapFdErr e, []⟩, none), (w.closeDescriptor task rfd).2)
          | (.ok wfd, w) => some ((⟨0, []⟩, some (rfd, wfd)), w)

/-- The errors of a `VfsFile`. -/
def mapErr : VfsError → FdError
  | .NotFound | .Invalid => .NotFound
  | _ => .Io

/-- The offset of a handle moves on. -/
def advance (h : HandleId) (n : Nat) : PipeWorld ω :=
  let file := w.fds.handles h
  { w with fds.handles := update w.fds.handles h { file with offset := file.offset + n } }

/-- `FileHandle::write` of a `VfsFile`: the offset moves on if the write succeeds. -/
def handleWrite (h : HandleId) (buf : List UInt8) : Option (Except FdError Nat × PipeWorld ω) :=
  (vfsWrite reg (w.fds.handles h).node (w.fds.handles h).offset buf w.vfs).map fun
    | (.ok n, vfs) => (.ok n, { w with vfs }.advance h n)
    | (.error e, vfs) => (.error (mapErr e), { w with vfs })

/-- `FileHandle::read` of a `VfsFile`. -/
def handleRead (h : HandleId) (len : Nat) : Option (Except FdError (List UInt8) × PipeWorld ω) :=
  (vfsRead reg (w.fds.handles h).node (w.fds.handles h).offset len w.vfs).map fun
    | (.ok bytes, vfs) => (.ok bytes, { w with vfs }.advance h bytes.length)
    | (.error e, vfs) => (.error (mapErr e), { w with vfs })

/-- `sys_write` where the descriptor is closed or its write has failed. -/
def writeConsole (fd : Nat) (buf : List UInt8) : SysAnswer × PipeWorld ω :=
  if fd ≠ 1 ∧ fd ≠ 2 ∧ fd ≠ 3 then (⟨-1, []⟩, w)
  else if fd = 3 then (⟨buf.length, []⟩, { w with terminal := w.terminal ++ buf })
  else (⟨buf.length, []⟩, { w with serial := w.serial ++ buf })

def sysWrite (task fd : Nat) (valid : Bool) (buf : List UInt8) : Option (SysAnswer × PipeWorld ω) :=
  if buf.length = 0 then some (⟨0, []⟩, w)
  else if !valid then some (⟨-1, []⟩, w)
  else
    match (w.fds.tables task).getFd fd with
    | none => some (w.writeConsole fd buf)
    | some h =>
      (w.handleWrite reg h buf).map fun
        | (.ok n, w) => (⟨n, []⟩, w)
        | (.error _, w) => w.writeConsole fd buf

/-- `sys_read` where the descriptor is closed or its read has failed: descriptor 0 is the
keyboard, which is waited for. -/
def readConsole (fd len : Nat) (typed : List UInt8) : Option (SysAnswer × PipeWorld ω) :=
  if fd ≠ 0 then some (⟨-1, []⟩, w)
  else if typed.take len = [] then none
  else some (⟨(typed.take len).length, typed.take len⟩, w)

def sysRead (task fd : Nat) (valid : Bool) (len : Nat) (typed : List UInt8) :
    Option (SysAnswer × PipeWorld ω) :=
  if len = 0 then some (⟨0, []⟩, w)
  else if !valid then some (⟨-1, []⟩, w)
  else
    match (w.fds.tables task).getFd fd with
    | none => w.readConsole fd len typed
    | some h =>
      (w.handleRead reg h len).bind fun
        | (.ok bytes, w) => some (⟨bytes.length, bytes⟩, w)
        | (.error _, w) => w.readConsole fd len typed

def sysDup (task fd : Nat) : Option (SysAnswer × PipeWorld ω) :=
  ((w.fds.tables task).dup fd 0 false w.fds.handles).map fun (r, t, hs) =>
    (descriptorAnswer r, { w with fds := w.fds.setTable task t hs })

def sysDup2 (task oldfd newfd : Nat) : Option (SysAnswer × PipeWorld ω) :=
  ((w.fds.tables task).dup2 oldfd newfd false w.fds.handles).map fun (r, t, hs) =>
    (descriptorAnswer r, { w with fds := w.fds.setTable task t hs })

/-- The descriptors of the child; a fork that fails changes none. -/
def sysFork (task : Nat) : Option (SysAnswer × PipeWorld ω) :=
  (w.fds.step (.fork task)).map fun fds => (⟨w.fds.nextTask, []⟩, { w with fds })

def sysClose (task fd : Nat) : SysAnswer × PipeWorld ω :=
  match w.closeDescriptor task fd with
  | (.ok (), w) => (⟨0, []⟩, w)
  | (.error e, w) => (⟨mapFdErr e, []⟩, w)

/-- A call of a task; nothing if it panics or does not return. -/
def perform (task : Nat) : PipeCall → Option (SysAnswer × PipeWorld ω)
  | .pipe valid => (w.sysPipe ends task valid).map fun (a, w) => (a.1, w)
  | .write fd valid buf => w.sysWrite reg task fd valid buf
  | .read fd valid len typed => w.sysRead reg task fd valid len typed
  | .dup fd => w.sysDup task fd
  | .dup2 oldfd newfd => w.sysDup2 task oldfd newfd
  | .fork => w.sysFork task
  | .close fd => some (w.sysClose task fd)

/-- No descriptors and no pipes yet, over any nodes. -/
def start (vfs : Vfs ω) : PipeWorld ω where
  fds := .init
  vfs
  pipes _ := ⟨.new PipeCapacity pipeCapacity_pos 0, 0, 0⟩
  nextPipe := 0
  serial := []
  terminal := []

/-- What tasks reach by these calls, in any order. -/
inductive Reach (vfs : Vfs ω) : PipeWorld ω → Prop
  | start : Reach vfs (start vfs)
  | spawn {w : PipeWorld ω} {fds : FdWorld} (h : Reach vfs w) (hspawn : w.fds.step .spawn = some fds) :
      Reach vfs { w with fds }
  | call {w w' : PipeWorld ω} (task : Nat) (call : PipeCall) {a : SysAnswer} (h : Reach vfs w)
      (htask : task < w.fds.nextTask) (hcall : w.perform reg ends task call = some (a, w')) : Reach vfs w'

/-! ## What is asked of the calls -/

/-- The pipe end that a descriptor of a task refers to. -/
def endOf (task fd : Nat) : Option PipeEnd :=
  ((w.fds.tables task).getFd fd).bind fun h =>
    (((w.vfs.nodes (w.fds.handles h).node).handle).bind w.vfs.heap).bind ends.unbox

/-- Some descriptor refers to the end. -/
def Open (e : PipeEnd) : Prop :=
  ∃ task < w.fds.nextTask, ∃ fd, w.endOf ends task fd = some e

def buffered (p : Nat) : List UInt8 := (w.pipes p).ring.contents

/-- The write is one that a pipe has to take. -/
def Writable (task fd : Nat) (valid : Bool) (buf : List UInt8) (p : Nat) : Prop :=
  w.endOf ends task fd = some ⟨p, true⟩ ∧ valid = true ∧ 1 ≤ buf.length ∧
    (w.buffered p).length + buf.length ≤ PipeCapacity ∧ w.Open ends ⟨p, false⟩

/-- The call does what is asked of a pipe.  A write that the pipe has to take goes into it as
a whole.  A read delivers the oldest bytes, and returns 0 if and only if there are none and
no descriptor refers to the write end. -/
def ActsAsPipe (task : Nat) : PipeCall → Prop
  | .write fd valid buf => ∀ p, w.Writable ends task fd valid buf p →
      ∃ a w', w.perform reg ends task (.write fd valid buf) = some (a, w') ∧ a.ret = buf.length ∧
        w'.buffered p = w.buffered p ++ buf
  | .read fd valid len typed => ∀ p, w.endOf ends task fd = some ⟨p, false⟩ → valid = true →
      (w.buffered p ≠ [] → ∃ a w', w.perform reg ends task (.read fd valid len typed) = some (a, w') ∧
        a.ret = a.bytes.length ∧ w'.buffered p = (w.buffered p).drop len) ∧
      (∀ a w', w.perform reg ends task (.read fd valid len typed) = some (a, w') →
        a.bytes = (w.buffered p).take len) ∧
      ((∃ a w', w.perform reg ends task (.read fd valid len typed) = some (a, w') ∧ a.ret = 0) ↔
        w.buffered p = [] ∧ ¬ w.Open ends ⟨p, true⟩)
  | _ => True

/-- The write is not one that a pipe has to take.  A read of a pipe asks for nothing and the
pipe has no writer, or it asks for bytes, the pipe has a writer and nothing is typed on the
keyboard in its place. -/
def OutOfReach (task : Nat) : PipeCall → Prop
  | .write fd valid buf => ∀ p, ¬ w.Writable ends task fd valid buf p
  | .read fd valid len typed => ∀ p, w.endOf ends task fd = some ⟨p, false⟩ → valid = true →
      (len = 0 ∧ ¬ w.Open ends ⟨p, true⟩) ∨
        (len ≠ 0 ∧ w.Open ends ⟨p, true⟩ ∧ (fd = 0 → typed = []))
  | _ => True

end PipeWorld

/-! ## Slots keep their handles -/

namespace FdTable

variable {t t' : FdTable} {hs hs' : Handles} {fd : Nat}

/-- No other handle comes into a slot, and every handle keeps its node. -/
structure Inherits (t : FdTable) (hs : Handles) (t' : FdTable) (hs' : Handles) : Prop where
  slots : ∀ fd h, t'.getFd fd = some h → ∃ i, t.getFd i = some h
  nodes : ∀ h, (hs' h).node = (hs h).node

theorem node_incRef (h h' : HandleId) : (hs.incRef h' h).node = (hs h).node := by
  unfold Handles.incRef
  by_cases heq : h = h'
  · subst heq
    simp
  · simp [heq]

theorem node_decRef (h h' : HandleId) : (hs.decRef h' h).node = (hs h).node := by
  unfold Handles.decRef
  by_cases heq : h = h'
  · subst heq
    simp
  · simp [heq]

theorem Inherits.refl : Inherits t hs t hs := ⟨fun fd _ h => ⟨fd, h⟩, fun _ => rfl⟩

/-- One slot has been written, with nothing or with a handle of another slot. -/
theorem Inherits.of_update (hget : t'.getFd = update t.getFd fd o)
    (ho : ∀ h, o = some h → ∃ i, t.getFd i = some h) (hnodes : ∀ h, (hs' h).node = (hs h).node) :
    Inherits t hs t' hs' := by
  refine ⟨fun i h hi => ?_, hnodes⟩
  rw [hget] at hi
  by_cases hfd : i = fd
  · subst hfd
    rw [update_self] at hi
    exact ho h hi
  · rw [update_of_ne hfd] at hi
    exact ⟨i, hi⟩

theorem node_closeFd (h : HandleId) : ((t.closeFd fd hs).2.2 h).node = (hs h).node := by
  by_cases hlt : fd < t.entries.length
  · rw [closeFd_of_lt hlt]
    cases t.getFd fd with
    | none => rfl
    | some h' => exact node_decRef h h'
  · rw [closeFd_of_le (Nat.not_lt.mp hlt)]

theorem closeFd_inherits : Inherits t hs (t.closeFd fd hs).2.1 (t.closeFd fd hs).2.2 :=
  .of_update getFd_closeFd (fun _ hnone => by cases hnone) node_closeFd

theorem dup_inherits (hrun : t.dup fd minFd c hs = some (r, t', hs')) : Inherits t hs t' hs' := by
  unfold dup at hrun
  split at hrun
  · cases hrun
    exact .refl
  · next handle hget =>
    obtain ⟨⟨r', t1⟩, halloc, ⟨⟩⟩ := map_eq_some_iff.mp hrun
    rcases getFd_allocFd halloc with ⟨n, -, -, hupdate⟩ | ⟨-, hsame, -⟩
    · exact .of_update hupdate (fun h heq => ⟨fd, heq ▸ hget⟩) fun h => node_incRef h handle
    · exact ⟨fun i h hi => ⟨i, hsame ▸ hi⟩, fun h => node_incRef h handle⟩

theorem dup2_inherits
    (hrun : t.dup2 oldfd newfd c hs = some (r, t', hs')) : Inherits t hs t' hs' := by
  unfold dup2 at hrun
  split at hrun
  · cases hrun
    exact .refl
  · next handle hget =>
    obtain ⟨t1, hensure, hrun⟩ := bind_eq_some_iff.mp hrun
    have hgrown := getFd_ensureLen hensure
    split at hrun
    · cases hrun
    · next entry hentry =>
      obtain ⟨hlt, -⟩ := List.getElem?_eq_some_iff.mp hentry
      rw [getElem?_of_lt hlt] at hentry
      cases hentry
      split at hrun
      · cases hrun
        refine ⟨fun i h hi => ⟨i, ?_⟩, fun _ => rfl⟩
        rw [getFd_setSlot hlt, update_eq_self] at hi
        rw [← hgrown, hi]
      · cases hrun
        -- What is in the slot before it is written does not matter.
        have hwrite : ∀ (t2 : FdTable) (hs2 : Handles), newfd < t2.entries.length →
            (∀ i h, t2.getFd i = some h → t.getFd i = some h) → (∀ h, (hs2 h).node = (hs h).node) →
            Inherits t hs (t2.setSlot newfd (some handle) c) (hs2.incRef handle) := by
          intro t2 hs2 hlt2 hsub hnodes
          refine ⟨fun i h hi => ?_, fun h => (node_incRef h handle).trans (hnodes h)⟩
          rw [getFd_setSlot hlt2] at hi
          by_cases hfd : i = newfd
          · subst hfd
            rw [update_self] at hi
            exact ⟨oldfd, hi ▸ hget⟩
          · rw [update_of_ne hfd] at hi
            exact ⟨i, hsub i h hi⟩
        cases hopen : t1.getFd newfd with
        | none => exact hwrite t1 hs hlt (fun i h hi => hgrown ▸ hi) fun _ => rfl
        | some old =>
          refine hwrite (t1.closeFd newfd hs).2.1 (t1.closeFd newfd hs).2.2 ?_ (fun i h hi => ?_) node_closeFd
          · rw [closeFd_of_lt hlt]
            simpa [setSlot] using hlt
          · rw [getFd_closeFd] at hi
            by_cases hfd : i = newfd
            · subst hfd
              rw [update_self] at hi
              cases hi
            · rw [update_of_ne hfd] at hi
              rw [← hgrown, hi]

theorem forkClone_inherits : Inherits t hs (t.forkClone hs).1 (t.forkClone hs).2 := by
  refine ⟨fun i h hi => ⟨i, hi⟩, fun h => ?_⟩
  unfold forkClone
  generalize t.entries = entries
  induction entries generalizing hs with
  | nil => rfl
  | cons e entries ih =>
    rw [List.foldl_cons, ih]
    cases e with
    | none => rfl
    | some h' => exact node_incRef h h'

end FdTable

/-! ## No descriptor reaches the filesystem of the pipes -/

section Nodes

variable (s : Vfs ω) (n m : NodeId)

theorem fsid_vfsNodeAlloc (name : Str) :
    ((vfsNodeAlloc name s).2.nodes n).fsid = if n = s.next then 0 else (s.nodes n).fsid := by
  unfold vfsNodeAlloc
  by_cases hn : n = s.next
  · subst hn
    simp
  · simp [hn]

theorem fsid_modify_nodeType (ty : VfsNodeType) :
    ((s.modify m ({ · with nodeType := ty })).nodes n).fsid = (s.nodes n).fsid := by
  unfold Vfs.modify
  by_cases hn : n = m
  · subst hn
    simp
  · simp [hn]

theorem fsid_setHandle (value : ω) : ((s.setHandle m value).nodes n).fsid = (s.nodes n).fsid := by
  unfold Vfs.setHandle
  by_cases hn : n = m
  · subst hn
    simp
  · simp [hn]

end Nodes

namespace PipeWorld

variable {ω : Type} {reg : Registry ω} {ends : Boxed PipeEnd ω} {w w' : PipeWorld ω} {task : Nat}
  {fds : FdWorld}

/-- The open files are nodes without a filesystem, and nothing has gone into a pipe. -/
structure Unserved (w : PipeWorld ω) : Prop where
  nodes : ∀ task fd h, (w.fds.tables task).getFd fd = some h → (w.vfs.nodes (w.fds.handles h).node).fsid = 0
  empty : ∀ p, w.buffered p = []

theorem unserved_start (vfs : Vfs ω) : Unserved (start vfs) :=
  ⟨fun _ _ _ h => (by cases h), fun _ => rfl⟩

section

variable (hw : Unserved w)

include hw

/-- The table of a task is replaced by one that has no other handles than some table. -/
theorem Unserved.setTable (task : Nat)
    (ht : FdTable.Inherits (w.fds.tables source) w.fds.handles t hs) :
    Unserved { w with fds := w.fds.setTable task t hs } := by
  refine ⟨fun i fd h hget => ?_, hw.empty⟩
  show (w.vfs.nodes (hs h).node).fsid = 0
  rw [ht.nodes]
  by_cases hi : i = task
  · subst hi
    simp only [FdWorld.setTable, update_self] at hget
    obtain ⟨j, hj⟩ := ht.slots fd h hget
    exact hw.nodes source j h hj
  · simp only [FdWorld.setTable, update_of_ne hi] at hget
    exact hw.nodes i fd h hget

/-- The numbers and flags of the tasks do not matter. -/
theorem Unserved.of_fds (htables : fds.tables = w.fds.tables) (hhandles : fds.handles = w.fds.handles) :
    Unserved { w with fds } := by
  refine ⟨fun i fd h hget => ?_, hw.empty⟩
  show (w.vfs.nodes (fds.handles h).node).fsid = 0
  rw [hhandles]
  exact hw.nodes i fd h (htables ▸ hget)

theorem Unserved.spawn (hspawn : w.fds.step .spawn = some fds) : Unserved { w with fds } := by
  cases hspawn
  have hnew : FdTable.Inherits (w.fds.tables 0) w.fds.handles .new w.fds.handles :=
    ⟨fun _ _ h => (by cases h), fun _ => rfl⟩
  exact (hw.setTable w.fds.nextTask hnew).of_fds rfl rfl

theorem Unserved.fork (hfork : w.fds.step (.fork task) = some fds) : Unserved { w with fds } := by
  simp only [FdWorld.step] at hfork
  split at hfork
  · cases hfork
  · cases hfork
    exact (hw.setTable w.fds.nextTask FdTable.forkClone_inherits).of_fds rfl rfl

theorem Unserved.closeDescriptor (fd : Nat) : Unserved (w.closeDescriptor task fd).2 :=
  hw.setTable task FdTable.closeFd_inherits

/-- A new handle of a node without a filesystem. -/
theorem Unserved.allocHandle (hnode : (w.vfs.nodes node).fsid = 0)
    (hrun : w.allocHandle task node = some (r, w')) : Unserved w' ∧ w'.vfs = w.vfs := by
  obtain ⟨⟨r', t⟩, halloc, ⟨⟩⟩ := map_eq_some_iff.mp hrun
  rcases FdTable.getFd_allocFd halloc with ⟨fd, rfl, -, hupdate⟩ | ⟨⟨e, rfl⟩, hsame, -⟩
  · refine ⟨⟨fun i j h hget => ?_, hw.empty⟩, rfl⟩
    by_cases hh : h = w.fds.nextHandle
    · subst hh
      simpa [FdWorld.stored, FdWorld.setTable, FileHandle.new] using hnode
    · have hold : ∃ i j, (w.fds.tables i).getFd j = some h := by
        by_cases hi : i = task
        · subst hi
          simp only [FdWorld.stored, FdWorld.setTable, update_self, hupdate] at hget
          by_cases hj : j = fd
          · subst hj
            rw [update_self] at hget
            cases hget
            exact absurd rfl hh
          · rw [update_of_ne hj] at hget
            exact ⟨i, j, hget⟩
        · simp only [FdWorld.stored, FdWorld.setTable, update_of_ne hi] at hget
          exact ⟨i, j, hget⟩
      obtain ⟨i, j, hij⟩ := hold
      simpa [FdWorld.stored, FdWorld.setTable, hh] using hw.nodes i j h hij
  · have hinherits : FdTable.Inherits (w.fds.tables task) w.fds.handles t w.fds.handles :=
      ⟨fun i h hi => ⟨i, hsame ▸ hi⟩, fun _ => rfl⟩
    exact ⟨hw.setTable task hinherits, rfl⟩

end

variable (ends) in
theorem fsid_pipefsCreatePair (w : PipeWorld ω) (n : NodeId) :
    (((w.pipefsCreatePair ends).2.2.vfs).nodes n).fsid =
      if n = (w.pipefsCreatePair ends).1 ∨ n = (w.pipefsCreatePair ends).2.1 then 0
      else (w.vfs.nodes n).fsid := by
  simp only [pipefsCreatePair, fsid_setHandle, fsid_modify_nodeType, fsid_vfsNodeAlloc]
  simp only [vfsNodeAlloc]
  by_cases hread : n = w.vfs.next
  · simp [hread]
  · by_cases hwrite : n = w.vfs.next + 1
    · simp [hwrite]
    · simp [hread, hwrite]

variable (ends) in
theorem Unserved.pipefsCreatePair (hw : Unserved w) : Unserved (w.pipefsCreatePair ends).2.2 := by
  refine ⟨fun i fd h hget => ?_, fun p => ?_⟩
  · have hold : (w.vfs.nodes (w.fds.handles h).node).fsid = 0 := hw.nodes i fd h hget
    rw [fsid_pipefsCreatePair]
    split
    · rfl
    · exact hold
  · by_cases hp : p = w.nextPipe
    · subst hp
      simp [buffered, PipeWorld.pipefsCreatePair, RingBuffer.contents_new]
    · have hempty := hw.empty p
      simpa [buffered, PipeWorld.pipefsCreatePair, hp] using hempty

theorem Unserved.sysPipe (hw : Unserved w)
    (hrun : w.sysPipe ends task valid = some (a, w')) : Unserved w' := by
  unfold PipeWorld.sysPipe at hrun
  split at hrun
  · cases hrun
    exact hw
  · have hpair := hw.pipefsCreatePair ends
    have hread := fsid_pipefsCreatePair ends w (w.pipefsCreatePair ends).1
    have hwrite := fsid_pipefsCreatePair ends w (w.pipefsCreatePair ends).2.1
    rw [if_pos (.inl rfl)] at hread
    rw [if_pos (.inr rfl)] at hwrite
    obtain ⟨⟨r, w1⟩, halloc, hrun⟩ := bind_eq_some_iff.mp hrun
    obtain ⟨hw1, hvfs⟩ := hpair.allocHandle hread halloc
    cases r with
    | error e =>
      cases hrun
      exact hw1
    | ok rfd =>
      obtain ⟨⟨r', w2⟩, halloc', hrun⟩ := bind_eq_some_iff.mp hrun
      obtain ⟨hw2, -⟩ := hw1.allocHandle (by rw [hvfs, hwrite]) halloc'
      cases r' with
      | error e =>
        cases hrun
        exact hw2.closeDescriptor rfd
      | ok wfd =>
        cases hrun
        exact hw2

theorem Unserved.writeConsole (hw : Unserved w) (fd : Nat) (buf : List UInt8) :
    Unserved (w.writeConsole fd buf).2 := by
  unfold PipeWorld.writeConsole
  split_ifs
  · exact ⟨hw.nodes, hw.empty⟩
  · exact ⟨hw.nodes, hw.empty⟩
  · exact ⟨hw.nodes, hw.empty⟩

theorem readConsole_world (hrun : w.readConsole fd len typed = some (a, w')) : w = w' := by
  unfold readConsole at hrun
  split_ifs at hrun
  · cases hrun
    rfl
  · cases hrun
    rfl

theorem sysClose_world (fd : Nat) : (w.sysClose task fd).2 = (w.closeDescriptor task fd).2 := by
  unfold sysClose
  rcases w.closeDescriptor task fd with ⟨_ | _, w1⟩
  · rfl
  · rfl

section Dispatch

variable (hzero : reg.getFilesystemById 0 = none)

include hzero

/-- The VFS has no filesystem to pass the write to. -/
theorem Unserved.sysWrite_eq (hw : Unserved w) (fd : Nat) (buf : List UInt8) (hbuf : buf.length ≠ 0) :
    w.sysWrite reg task fd true buf = some (w.writeConsole fd buf) := by
  unfold sysWrite
  rw [if_neg hbuf, if_neg (by simp)]
  cases hget : (w.fds.tables task).getFd fd with
  | none => rfl
  | some h => simp [handleWrite, vfsWrite, hw.nodes task fd h hget, hzero]

theorem Unserved.sysRead_eq (hw : Unserved w) (fd len : Nat) (typed : List UInt8) (hlen : len ≠ 0) :
    w.sysRead reg task fd true len typed = w.readConsole fd len typed := by
  unfold sysRead
  rw [if_neg hlen, if_neg (by simp)]
  cases hget : (w.fds.tables task).getFd fd with
  | none => rfl
  | some h => simp [handleRead, vfsRead, hw.nodes task fd h hget, hzero]

theorem Unserved.perform (hw : Unserved w)
    (hrun : w.perform reg ends task call = some (a, w')) : Unserved w' := by
  cases call with
  | pipe valid =>
    obtain ⟨⟨b, w1⟩, hpipe, ⟨⟩⟩ := map_eq_some_iff.mp hrun
    exact hw.sysPipe hpipe
  | write fd valid buf =>
    by_cases hbuf : buf.length = 0
    · simp only [PipeWorld.perform, sysWrite, if_pos hbuf] at hrun
      cases hrun
      exact hw
    · cases valid with
      | false =>
        simp only [PipeWorld.perform, sysWrite, if_neg hbuf, Bool.not_false, if_true] at hrun
        cases hrun
        exact hw
      | true =>
        rw [PipeWorld.perform, hw.sysWrite_eq hzero fd buf hbuf] at hrun
        have hconsole := hw.writeConsole fd buf
        rw [Option.some.inj hrun] at hconsole
        exact hconsole
  | read fd valid len typed =>
    by_cases hlen : len = 0
    · simp only [PipeWorld.perform, sysRead, if_pos hlen] at hrun
      cases hrun
      exact hw
    · cases valid with
      | false =>
        simp only [PipeWorld.perform, sysRead, if_neg hlen, Bool.not_false, if_true] at hrun
        cases hrun
        exact hw
      | true =>
        rw [PipeWorld.perform, hw.sysRead_eq hzero fd len typed hlen] at hrun
        rw [← readConsole_world hrun]
        exact hw
  | dup fd =>
    obtain ⟨⟨r, t, hs⟩, hdup, ⟨⟩⟩ := map_eq_some_iff.mp hrun
    exact hw.setTable task (FdTable.dup_inherits hdup)
  | dup2 oldfd newfd =>
    obtain ⟨⟨r, t, hs⟩, hdup, ⟨⟩⟩ := map_eq_some_iff.mp hrun
    exact hw.setTable task (FdTable.dup2_inherits hdup)
  | fork =>
    obtain ⟨fds, hfork, ⟨⟩⟩ := map_eq_some_iff.mp hrun
    exact hw.fork hfork
  | close fd =>
    have hclose : Unserved (w.sysClose task fd).2 := by
      rw [sysClose_world]
      exact hw.closeDescriptor fd
    rw [Option.some.inj hrun] at hclose
    exact hclose

/-- In every world that is reached, by induction on the calls. -/
theorem Reach.unserved {vfs : Vfs ω} (hreach : Reach reg ends vfs w) : Unserved w := by
  induction hreach with
  | start => exact unserved_start vfs
  | spawn _ hspawn ih => exact ih.spawn hspawn
  | call task call _ _ hcall ih => exact ih.perform hzero hcall

/-! ## Which calls act as on a pipe -/

theorem Unserved.actsAsPipe_write (hw : Unserved w) (fd : Nat) (valid : Bool) (buf : List UInt8) :
    w.ActsAsPipe reg ends task (.write fd valid buf) ↔ w.OutOfReach ends task (.write fd valid buf) := by
  constructor
  · intro hacts p hp
    have hlen : 1 ≤ buf.length := hp.2.2.1
    obtain ⟨a, w1, hrun, -, happend⟩ := hacts p hp
    -- The bytes would be in a pipe in which there are none.
    rw [(hw.perform hzero hrun).empty, hw.empty, List.nil_append] at happend
    rw [← happend] at hlen
    exact absurd hlen (by decide)
  · intro hout p hp
    exact absurd hp (hout p)

theorem Unserved.actsAsPipe_read (hw : Unserved w) (fd : Nat) (valid : Bool) (len : Nat)
    (typed : List UInt8) :
    w.ActsAsPipe reg ends task (.read fd valid len typed) ↔
      w.OutOfReach ends task (.read fd valid len typed) := by
  refine forall_congr' fun p => imp_congr_right fun _ => imp_congr_right fun hvalid => ?_
  subst hvalid
  simp only [hw.empty, ne_eq, not_true_eq_false, false_implies, true_and, List.take_nil]
  by_cases hlen : len = 0
  · subst hlen
    simp [PipeWorld.perform, sysRead]
  · rw [PipeWorld.perform, hw.sysRead_eq hzero fd len typed hlen]
    simp only [hlen, false_and, false_or, not_false_eq_true, true_and]
    by_cases hfd : fd = 0
    · subst hfd
      cases typed with
      | nil => simp [readConsole]
      | cons key typed =>
        -- The bytes that were typed are delivered in place of those of the pipe.
        have htake : (key :: typed).take len ≠ [] := by simp [hlen]
        simp only [readConsole, if_neg htake, ne_eq, not_true_eq_false, if_false]
        constructor
        · rintro ⟨hbytes, -⟩
          exact absurd (hbytes _ _ rfl) htake
        · rintro ⟨-, htyped⟩
          cases htyped trivial
    · simp [readConsole, hfd]

end Dispatch

/-- In the registry of `init_vfs`, whatever its filesystems do, the calls that act as on a
pipe are those that have nothing to do with the bytes in it. -/
theorem actsAsPipe_iff_outOfReach (tmpfs devtmpfs sysfs procfs fatfs : Nat → VfsOps ω)
    (ends : Boxed PipeEnd ω) (vfs : Vfs ω)
    (hreach : Reach (initVfsRegistry tmpfs devtmpfs sysfs procfs fatfs) ends vfs w)
    (task : Nat) (call : PipeCall) :
    w.ActsAsPipe (initVfsRegistry tmpfs devtmpfs sysfs procfs fatfs) ends task call ↔
      w.OutOfReach ends task call := by
  have hzero := getFilesystemById_zero tmpfs devtmpfs sysfs procfs fatfs
  have hw := hreach.unserved hzero
  cases call with
  | write fd valid buf => exact hw.actsAsPipe_write hzero fd valid buf
  | read fd valid len typed => exact hw.actsAsPipe_read hzero fd valid len typed
  | pipe valid => exact Iff.rfl
  | dup fd => exact Iff.rfl
  | dup2 oldfd newfd => exact Iff.rfl
  | fork => exact Iff.rfl
  | close fd => exact Iff.rfl

/-! ## A pipe of one task -/

def oneTask (vfs : Vfs ω) : PipeWorld ω :=
  { start vfs with fds := { FdWorld.init with
      tables := update FdWorld.init.tables 0 .new
      exited := update FdWorld.init.exited 0 false
      nextTask := 1 } }

variable (reg ends) in
/-- The calls of a task that exists, one after the other. -/
def performAll (task : Nat) : List PipeCall → PipeWorld ω → Option (PipeWorld ω)
  | [], w => some w
  | call :: calls, w =>
    if task < w.fds.nextTask then
      (w.perform reg ends task call).bind fun (_, w) => performAll task calls w
    else none

theorem reach_oneTask (vfs : Vfs ω) : Reach reg ends vfs (oneTask vfs) := .spawn .start rfl

theorem Reach.performAll {vfs : Vfs ω} (hreach : Reach reg ends vfs w)
    (hrun : performAll reg ends task calls w = some w') : Reach reg ends vfs w' := by
  induction calls generalizing w with
  | nil =>
    cases hrun
    exact hreach
  | cons call calls ih =>
    rw [PipeWorld.performAll] at hrun
    split at hrun
    · next htask =>
      obtain ⟨⟨a, w1⟩, hcall, hrest⟩ := bind_eq_some_iff.mp hrun
      exact ih (hreach.call task call htask hcall) hrest
    · cases hrun

/-- The registry, as far as its numbers go. -/
def bareRegistry : Registry PipeEnd :=
  initVfsRegistry (fun _ => .defaults) (fun _ => .defaults) (fun _ => .defaults) (fun _ => .defaults)
    (fun _ => .defaults)

/-- A task after some calls, from a table without descriptors. -/
def pipeRun (calls : List PipeCall) : Option (PipeWorld PipeEnd) :=
  performAll bareRegistry (Boxed.self PipeEnd) 0 calls (oneTask vfsInit)

/-- A read of a pipe that has a writer, on a descriptor that is not the keyboard's: it returns
an error in place of waiting. -/
theorem actsAsPipe_iff_outOfReach_read :
    ∃ w, pipeRun [.pipe true, .dup2 0 5] = some w ∧
      w.endOf (Boxed.self PipeEnd) 0 5 = some ⟨0, false⟩ ∧
      w.ActsAsPipe bareRegistry (Boxed.self PipeEnd) 0 (.read 5 true 1 []) := by
  obtain ⟨w, hrun⟩ : ∃ w, pipeRun [.pipe true, .dup2 0 5] = some w :=
    isSome_iff_exists.mp (by decide +kernel)
  have hends : (pipeRun [.pipe true, .dup2 0 5]).map (fun w =>
      (w.endOf (Boxed.self PipeEnd) 0 5, w.endOf (Boxed.self PipeEnd) 0 1, w.fds.nextTask)) =
      some (some ⟨0, false⟩, some ⟨0, true⟩, 1) := by decide +kernel
  rw [hrun, map_some, Option.some.injEq, Prod.mk.injEq, Prod.mk.injEq] at hends
  obtain ⟨hread, hwrite, htasks⟩ := hends
  refine ⟨w, hrun, hread, ?_⟩
  refine (actsAsPipe_iff_outOfReach _ _ _ _ _ (Boxed.self PipeEnd) vfsInit
    ((reach_oneTask vfsInit).performAll hrun) 0 (.read 5 true 1 [])).mpr fun p hp _ => ?_
  rw [hread] at hp
  cases hp
  exact .inr ⟨by decide, ⟨0, by rw [htasks]; decide, 1, hwrite⟩, fun _ => rfl⟩

/-- A byte is written to a pipe with both ends open: an error comes back, and the pipe stays
empty. -/
theorem write_not_in_pipe :
    ∃ w, pipeRun [.pipe true, .dup2 1 5] = some w ∧
      w.Writable (Boxed.self PipeEnd) 0 5 true [7] 0 ∧
      (w.perform bareRegistry (Boxed.self PipeEnd) 0 (.write 5 true [7])).map
        (fun r => (r.1.ret, r.2.buffered 0)) = some (-1, []) ∧
      ¬ w.ActsAsPipe bareRegistry (Boxed.self PipeEnd) 0 (.write 5 true [7]) := by
  obtain ⟨w, hrun⟩ : ∃ w, pipeRun [.pipe true, .dup2 1 5] = some w :=
    isSome_iff_exists.mp (by decide +kernel)
  have hfacts : (pipeRun [.pipe true, .dup2 1 5]).map (fun w =>
      (w.endOf (Boxed.self PipeEnd) 0 5, w.endOf (Boxed.self PipeEnd) 0 0, w.fds.nextTask,
        w.buffered 0)) = some (some ⟨0, true⟩, some ⟨0, false⟩, 1, []) := by decide +kernel
  have hanswer : (pipeRun [.pipe true, .dup2 1 5]).map (fun w =>
      (w.perform bareRegistry (Boxed.self PipeEnd) 0 (.write 5 true [7])).map
        (fun r => (r.1.ret, r.2.buffered 0))) = some (some (-1, [])) := by decide +kernel
  rw [hrun, map_some, Option.some.injEq] at hanswer
  rw [hrun, map_some, Option.some.injEq] at hfacts
  simp only [Prod.mk.injEq] at hfacts
  obtain ⟨hwrite, hread, htasks, hempty⟩ := hfacts
  have hwritable : w.Writable (Boxed.self PipeEnd) 0 5 true [7] 0 := by
    refine ⟨hwrite, rfl, by decide, ?_, 0, by rw [htasks]; decide, 0, hread⟩
    rw [hempty]
    decide
  refine ⟨w, hrun, hwritable, hanswer, fun hacts => ?_⟩
  obtain ⟨a, w1, hperform, hret, -⟩ := hacts 0 hwritable
  rw [hperform, map_some, Option.some.injEq, Prod.mk.injEq, hret] at hanswer
  exact absurd hanswer.1 (by decide)

end PipeWorld

end BoruixKernel
