import BoruixKernel.Fs.Sysfs

/-!
# procfs

Mounting makes four nodes below the mount point, whether they are there or not; the
directories of the tasks are made when they are looked up.  The texts are built from the state
of the kernel when they are read: `ProcTexts` has what the kernel answers.
-/

namespace BoruixKernel

inductive ProcKind where
  | Dir
  | Tasks
  | MemInfo
  | CpuInfo
  | SelfLink
  | PidDir
  | PidStatus
deriving DecidableEq, Repr

structure ProcHandle where
  kind : ProcKind
  pid : Option Nat
deriving DecidableEq, Repr

/-- What `build_tasks`, `build_meminfo`, `build_cpuinfo`, `build_status` and `current_pid` return. -/
structure ProcTexts where
  tasks : List UInt8
  meminfo : List UInt8
  cpuinfo : List UInt8
  status : Nat → List UInt8
  currentPid : Nat

namespace Procfs

variable {ω : Type} (P : Boxed ProcHandle ω) (texts : ProcTexts)

/-- `parse_pid`, with the saturating arithmetic of a `usize`. -/
def parsePid (name : Str) : Option Nat :=
  if name = [] then none
  else if name.all Char.isDigit then
    some (name.foldl (fun pid c => min (min (pid * 10) (2 ^ 64 - 1) + (c.toNat - 48)) (2 ^ 64 - 1)) 0)
  else none

def setNode (n : NodeId) (kind : ProcKind) (pid : Option Nat) (type : VfsNodeType) (s : Vfs ω) : Vfs ω :=
  s.fill n (P.box ⟨kind, pid⟩) type

/-- `self` is a link to the directory of the task that asks. -/
def setSelf (n : NodeId) (s : Vfs ω) : Vfs ω :=
  (setNode P n .SelfLink none .Symlink s).modify n
    ({ · with linktoPath := some (toString texts.currentPid).toList })

def appendFile (root : NodeId) (name : Str) (kind : ProcKind) (s : Vfs ω) : Vfs ω :=
  let (n, s) := vfsChildAppend root name s
  setNode P n kind none .Stream s

/-- The four nodes below the mount point. -/
def appendNodes (root : NodeId) (s : Vfs ω) : Vfs ω :=
  let s := appendFile P root "tasks".toList .Tasks s
  let s := appendFile P root "meminfo".toList .MemInfo s
  let s := appendFile P root "cpuinfo".toList .CpuInfo s
  let (self, s) := vfsChildAppend root "self".toList s
  setSelf P texts self s

def mount (root : NodeId) (s : Vfs ω) : VfsResult ω Unit :=
  some (.ok (), appendNodes P texts root (setNode P root .Dir none .Dir s))

def openEntry (parent : NodeId) (name : Str) (n : NodeId) (s : Vfs ω) : VfsResult ω Unit :=
  match P.get parent s with
  | .error e => some (.error e, s)
  | .ok (_, p) =>
    match p.kind with
    | .Dir =>
      if name = "tasks".toList then some (.ok (), setNode P n .Tasks none .Stream s)
      else if name = "meminfo".toList then some (.ok (), setNode P n .MemInfo none .Stream s)
      else if name = "cpuinfo".toList then some (.ok (), setNode P n .CpuInfo none .Stream s)
      else if name = "self".toList then some (.ok (), setSelf P texts n s)
      else
        match parsePid name with
        | some pid => some (.ok (), setNode P n .PidDir (some pid) .Dir s)
        | none => some (.error .NotFound, s)
    | .PidDir =>
      if name = "status".toList then some (.ok (), setNode P n .PidStatus p.pid .Stream s)
      else some (.error .NotFound, s)
    | _ => some (.error .NotFound, s)

def read (n : NodeId) (offset len : Nat) (s : Vfs ω) : VfsResult ω (List UInt8) :=
  match P.get n s with
  | .error e => some (.error e, s)
  | .ok (_, handle) =>
    match handle.kind with
    | .Tasks => some (.ok (Sysfs.readText texts.tasks offset len), s)
    | .MemInfo => some (.ok (Sysfs.readText texts.meminfo offset len), s)
    | .CpuInfo => some (.ok (Sysfs.readText texts.cpuinfo offset len), s)
    | .PidStatus => some (.ok (Sysfs.readText (texts.status (handle.pid.getD 0)) offset len), s)
    | .Dir | .SelfLink | .PidDir => some (.error .Invalid, s)

def ops : VfsOps ω where
  mount _ n := mount P texts n
  unmount n s := some (.ok (), s.freeHandle n)
  «open» := openEntry P texts
  read := read P texts
  write := VfsOps.defaults.write
  mkdir _ _ n s := some (.ok (), setNode P n .Dir none .Dir s)
  mkfile _ _ n s := some (.ok (), setNode P n .Tasks none .Stream s)
  delete _ n s := some (.ok (), s.freeHandle n)
  rename n newName s := some (.ok (), s.modify n ({ · with name := newName }))

end Procfs

end BoruixKernel
