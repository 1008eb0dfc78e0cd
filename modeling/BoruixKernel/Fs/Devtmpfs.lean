import BoruixKernel.Driver.Device
import BoruixKernel.Fs.Vfs

/-!
# devtmpfs

Mounting makes a node for every device of the driver hub whose name is not taken.  The box of
such a node refers to the device; reads and writes go to the device.

A device is an object of the kernel with a state of its own.  Here the state is in a box of
the heap, and `cell` is the address of the box.
-/

namespace BoruixKernel

/-! ## The driver hub -/

structure DeviceInfo where
  name : Str
  kind : DeviceKind
  bus : BusType
  vendorId : UInt16
  deviceId : UInt16
  classCode : UInt8
  subclass : UInt8
  progIf : UInt8
deriving DecidableEq, Repr

/-- The trait `DeviceOps`, as far as devtmpfs calls it: what a device does with its state.
`readAt` returns the bytes it put into the buffer. -/
structure DeviceOps (δ : Type) where
  kind : DeviceKind
  readAt : Nat → Nat → δ → List UInt8 × δ
  writeAt : Nat → List UInt8 → δ → Nat × δ

structure DeviceRef (δ : Type) where
  ops : DeviceOps δ
  cell : Handle

structure HubDevice (δ : Type) where
  info : DeviceInfo
  dev : Option (DeviceRef δ)
  driverName : Option Str

/-- The devices of the driver hub, as far as `device_count` goes. -/
abbrev DeviceTable (δ : Type) := List (Option (HubDevice δ))

/-! ## The filesystem -/

inductive DevTmpKind where
  | Dir
  | File
  | Symlink
  | Device
deriving DecidableEq, Repr

structure DevTmpHandle (δ : Type) where
  kind : DevTmpKind
  dev : Option (DeviceRef δ)

namespace DevTmpHandle

variable {δ : Type}

def newDir : DevTmpHandle δ := ⟨.Dir, none⟩

def newDev (dev : DeviceRef δ) : DevTmpHandle δ := ⟨.Device, some dev⟩

end DevTmpHandle

namespace Devtmpfs

variable {ω δ : Type} (P : Boxed (DevTmpHandle δ) ω) (D : Boxed δ ω) (hub : DeviceTable δ)

def deviceNodeType : DeviceKind → VfsNodeType
  | .Char => .Stream
  | .Block => .Block
  | _ => .None

def createDeviceNode (parent : NodeId) (name : Str) (dev : DeviceRef δ) (s : Vfs ω) : Vfs ω :=
  if (vfsChildFind parent name s).isSome then s
  else
    let (node, s) := vfsChildAppend parent name s
    s.fill node (P.box (.newDev dev)) (deviceNodeType dev.ops.kind)

/-- One round of the loop of `create_devices`. -/
def createDevice (root : NodeId) (s : Vfs ω) : Option (HubDevice δ) → Vfs ω
  | some ⟨info, some dev, _⟩ => createDeviceNode P root info.name dev s
  | _ => s

def createDevices (root : NodeId) (s : Vfs ω) : Vfs ω := hub.foldl (createDevice P root) s

def mount (n : NodeId) (s : Vfs ω) : VfsResult ω Unit :=
  some (.ok (), createDevices P hub n (s.fill n (P.box .newDir) .Dir))

/-- Go on with the state of the device of a node.  The state of a device is never freed. -/
def withDevice {α : Type} (n : NodeId) (s : Vfs ω) (k : DeviceRef δ → δ → VfsResult ω α) :
    VfsResult ω α :=
  match P.get n s with
  | .error e => some (.error e, s)
  | .ok (_, handle) =>
    match handle.dev with
    | none => some (.error .Invalid, s)
    | some dev =>
      match (s.heap dev.cell).bind D.unbox with
      | none => some (.error .Invalid, s)
      | some state => k dev state

/-- The state of a device after a call. -/
def setDevice (dev : DeviceRef δ) (state : δ) (s : Vfs ω) : Vfs ω :=
  { s with heap := Function.update s.heap dev.cell (some (D.box state)) }

def read (n : NodeId) (offset len : Nat) (s : Vfs ω) : VfsResult ω (List UInt8) :=
  withDevice P D n s fun dev state =>
    let (bytes, state) := dev.ops.readAt offset len state
    some (.ok bytes, setDevice D dev state s)

def write (n : NodeId) (offset : Nat) (buf : List UInt8) (s : Vfs ω) : VfsResult ω Nat :=
  withDevice P D n s fun dev state =>
    let (count, state) := dev.ops.writeAt offset buf state
    some (.ok count, setDevice D dev state s)

def ops : VfsOps ω where
  mount _ n := mount P hub n
  unmount n s := some (.ok (), s.freeHandle n)
  «open» := VfsOps.defaults.open
  read := read P D
  write := write P D
  mkdir _ _ n s := some (.ok (), s.fill n (P.box .newDir) .Dir)
  mkfile _ _ n s := some (.ok (), s.fill n (P.box ⟨.File, none⟩) .None)
  delete _ n s := some (.ok (), s.freeHandle n)
  rename n newName s := some (.ok (), s.modify n ({ · with name := newName }))

end Devtmpfs

end BoruixKernel
