import BoruixKernel.Fs.Tmpfs
import BoruixKernel.Fs.Procfs
import BoruixKernel.Fs.Fatfs

/-!
# The registered filesystems

The kernel registers tmpfs, devtmpfs, sysfs, procfs and FatFs, in this order.  FatFs calls
the VFS for the device of a volume, and the device may be a file of another volume; the
registry takes a bound on how deep volumes are inside each other, and on the recursion of
`vfs_open` there.
-/

namespace BoruixKernel

/-- The boxes of all filesystems, and the states of the devices. -/
inductive KernelBox (δ : Type) where
  | tmpfs (file : TmpfsFile)
  | devtmpfs (handle : DevTmpHandle δ)
  | device (state : δ)
  | sysfs (handle : SysHandle)
  | procfs (handle : ProcHandle)
  | fatfs (node : FatNode)

namespace KernelBox

variable {δ : Type}

def tmpfsBoxed : Boxed TmpfsFile (KernelBox δ) :=
  ⟨.tmpfs, fun | .tmpfs file => some file | _ => none, fun _ => rfl⟩

def devtmpfsBoxed : Boxed (DevTmpHandle δ) (KernelBox δ) :=
  ⟨.devtmpfs, fun | .devtmpfs handle => some handle | _ => none, fun _ => rfl⟩

def deviceBoxed : Boxed δ (KernelBox δ) :=
  ⟨.device, fun | .device state => some state | _ => none, fun _ => rfl⟩

def sysfsBoxed : Boxed SysHandle (KernelBox δ) :=
  ⟨.sysfs, fun | .sysfs handle => some handle | _ => none, fun _ => rfl⟩

def procfsBoxed : Boxed ProcHandle (KernelBox δ) :=
  ⟨.procfs, fun | .procfs handle => some handle | _ => none, fun _ => rfl⟩

def fatfsBoxed : Boxed FatNode (KernelBox δ) :=
  ⟨.fatfs, fun | .fatfs node => some node | _ => none, fun _ => rfl⟩

end KernelBox

/-- Operations beyond the bound: they do not return. -/
def VfsOps.never {ω : Type} : VfsOps ω where
  mount _ _ _ := none
  unmount _ _ := none
  «open» _ _ _ _ := none
  read _ _ _ _ := none
  write _ _ _ _ := none
  mkdir _ _ _ _ := none
  mkfile _ _ _ _ := none
  delete _ _ _ := none
  rename _ _ _ := none

section Registry

open KernelBox

variable {δ : Type} (hub : DeviceTable δ) (texts : ProcTexts)

/-- What is registered before FatFs. -/
def baseRegistry : Registry (KernelBox δ) :=
  (((Registry.register [] "tmpfs".toList (Tmpfs.ops tmpfsBoxed)).register
    "devtmpfs".toList fun _ => Devtmpfs.ops devtmpfsBoxed deviceBoxed hub).register
    "sysfs".toList fun _ => Sysfs.ops sysfsBoxed hub).register
    "procfs".toList fun _ => Procfs.ops procfsBoxed texts

/-- The registry after `init_vfs`. -/
def kernelRegistry : Nat → Registry (KernelBox δ)
  | 0 => (baseRegistry hub texts).register "fatfs".toList fun _ => .never
  | bound + 1 => (baseRegistry hub texts).register "fatfs".toList
      (Fatfs.ops (kernelRegistry bound) bound fatfsBoxed)

end Registry

end BoruixKernel
