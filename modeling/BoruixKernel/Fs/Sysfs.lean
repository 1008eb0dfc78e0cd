import BoruixKernel.Fs.Devtmpfs
import BoruixKernel.Lib.Bytes

/-!
# sysfs

Mounting builds a fixed set of directories below the mount point, whether they are there or
not, and then a file for every device with links to it.  What is missing later is made when
it is looked up.
-/

namespace BoruixKernel

inductive SysKind where
  | Dir
  | File
  | Symlink
deriving DecidableEq, Repr

inductive SysDirKind where
  | Root
  | Class
  | ClassChar
  | ClassBlock
  | ClassNet
  | ClassDisplay
  | ClassMisc
  | Devices
  | Bus
  | BusPci
  | BusPlatform
  | BusUnknown
  | BusPciDevices
  | BusPlatformDevices
  | BusUnknownDevices
  | Dev
  | DevChar
  | DevBlock
  | Kernel
deriving DecidableEq, Repr

structure SysHandle where
  kind : SysKind
  data : List UInt8
  dirKind : Option SysDirKind
deriving DecidableEq, Repr

def SysHandle.dir (kind : SysDirKind) : SysHandle := ⟨.Dir, [], some kind⟩

namespace Sysfs

variable {ω δ : Type} (P : Boxed SysHandle ω) (hub : DeviceTable δ)

/-! ## Nodes -/

def setDir (n : NodeId) (kind : SysDirKind) (s : Vfs ω) : Vfs ω := s.fill n (P.box (.dir kind)) .Dir

def setFile (n : NodeId) (data : List UInt8) (s : Vfs ω) : Vfs ω :=
  s.fill n (P.box ⟨.File, data, none⟩) .Stream

def setSymlink (n : NodeId) (target : Str) (s : Vfs ω) : Vfs ω :=
  (s.fill n (P.box ⟨.Symlink, utf8Bytes target, none⟩) .Symlink).modify n
    ({ · with linktoPath := some target })

def appendDir (parent : NodeId) (name : Str) (kind : SysDirKind) (s : Vfs ω) : NodeId × Vfs ω :=
  let (n, s) := vfsChildAppend parent name s
  (n, setDir P n kind s)

def appendDirs (parent : NodeId) (dirs : List (Str × SysDirKind)) (s : Vfs ω) : Vfs ω :=
  dirs.foldl (fun s d => (appendDir P parent d.1 d.2 s).2) s

def prebuild (root : NodeId) (s : Vfs ω) : Vfs ω :=
  let (cls, s) := appendDir P root "class".toList .Class s
  let (_, s) := appendDir P root "devices".toList .Devices s
  let (bus, s) := appendDir P root "bus".toList .Bus s
  let (dev, s) := appendDir P root "dev".toList .Dev s
  let (_, s) := appendDir P root "kernel".toList .Kernel s
  let s := appendDirs P cls [("char".toList, .ClassChar), ("block".toList, .ClassBlock),
    ("net".toList, .ClassNet), ("display".toList, .ClassDisplay), ("misc".toList, .ClassMisc)] s
  let s := appendDirs P dev [("char".toList, .DevChar), ("block".toList, .DevBlock)] s
  let (pci, s) := appendDir P bus "pci".toList .BusPci s
  let (platform, s) := appendDir P bus "platform".toList .BusPlatform s
  let (unknown, s) := appendDir P bus "unknown".toList .BusUnknown s
  let s := appendDirs P pci [("devices".toList, .BusPciDevices)] s
  let s := appendDirs P platform [("devices".toList, .BusPlatformDevices)] s
  appendDirs P unknown [("devices".toList, .BusUnknownDevices)] s

/-! ## Devices -/

def busText : BusType → Str
  | .Platform => "platform".toList
  | .Pci => "pci".toList
  | .Unknown => "unknown".toList

def kindText : DeviceKind → Str
  | .Char => "char".toList
  | .Block => "block".toList
  | .Net => "net".toList
  | .Display => "display".toList
  | .Misc => "misc".toList

/-- A number in hexadecimal digits, with zeros in front. -/
def hexPad (width n : Nat) : Str :=
  let digits := Nat.toDigits 16 n
  List.replicate (width - digits.length) '0' ++ digits

def deviceInfoText (info : DeviceInfo) (driver : Option Str) : List UInt8 :=
  utf8Bytes <|
    "name=".toList ++ info.name ++ "\nkind=".toList ++ kindText info.kind ++
    "\nbus=".toList ++ busText info.bus ++
    "\nvendor=".toList ++ hexPad 4 info.vendorId.toNat ++
    " device=".toList ++ hexPad 4 info.deviceId.toNat ++
    " class=".toList ++ hexPad 2 info.classCode.toNat ++
    " subclass=".toList ++ hexPad 2 info.subclass.toNat ++
    " prog-if=".toList ++ hexPad 2 info.progIf.toNat ++ "\n".toList ++
    match driver with
    | some drv => "driver=".toList ++ drv ++ "\n".toList
    | none => []

def ensureDeviceFile (parent : NodeId) (info : DeviceInfo) (driver : Option Str) (s : Vfs ω) : Vfs ω :=
  if (vfsChildFind parent info.name s).isSome then s
  else
    let (n, s) := vfsChildAppend parent info.name s
    setFile P n (deviceInfoText info driver) s

def ensureSymlink (parent : NodeId) (name target : Str) (s : Vfs ω) : Vfs ω :=
  if (vfsChildFind parent name s).isSome then s
  else
    let (n, s) := vfsChildAppend parent name s
    setSymlink P n target s

/-- A link in a directory that may be missing. -/
def ensureSymlinkIn (parent : Option NodeId) (name target : Str) (s : Vfs ω) : Vfs ω :=
  match parent with
  | some parent => ensureSymlink P parent name target s
  | none => s

def classDirForKind : DeviceKind → SysDirKind
  | .Char => .ClassChar
  | .Block => .ClassBlock
  | .Net => .ClassNet
  | .Display => .ClassDisplay
  | .Misc => .ClassMisc

def devPath (info : DeviceInfo) : Str := "/dev/".toList ++ info.name

def sysPath (info : DeviceInfo) : Str := "/sys/devices/".toList ++ info.name

/-- The directories that `populate_sysfs` looks up first. -/
structure SysDirs where
  cls : NodeId
  devices : NodeId
  devChar : NodeId
  devBlock : NodeId
  busPciDev : Option NodeId
  busPlatformDev : Option NodeId
  busUnknownDev : Option NodeId

/-- One round of the loop of `populate_sysfs`. -/
def populateDevice (dirs : SysDirs) (s : Vfs ω) : Option (HubDevice δ) → Vfs ω
  | none => s
  | some ⟨info, _, driver⟩ =>
    let s := ensureDeviceFile P dirs.devices info driver s
    let s := match info.kind with
      | .Char => ensureSymlink P dirs.devChar info.name (devPath info) s
      | .Block => ensureSymlink P dirs.devBlock info.name (devPath info) s
      | _ => s
    let s := ensureSymlinkIn P (vfsChildFind dirs.cls (kindText info.kind) s) info.name (sysPath info) s
    match info.bus with
    | .Pci => ensureSymlinkIn P dirs.busPciDev info.name (sysPath info) s
    | .Platform => ensureSymlinkIn P dirs.busPlatformDev info.name (sysPath info) s
    | .Unknown => ensureSymlinkIn P dirs.busUnknownDev info.name (sysPath info) s

/-- A directory two levels down. -/
def findBelow (parent : NodeId) (name below : Str) (s : Vfs ω) : Option NodeId :=
  (vfsChildFind parent name s).bind fun n => vfsChildFind n below s

def sysDirs (root : NodeId) (s : Vfs ω) : Option SysDirs := do
  let cls ← vfsChildFind root "class".toList s
  let devices ← vfsChildFind root "devices".toList s
  let bus ← vfsChildFind root "bus".toList s
  let dev ← vfsChildFind root "dev".toList s
  let devChar ← vfsChildFind dev "char".toList s
  let devBlock ← vfsChildFind dev "block".toList s
  return ⟨cls, devices, devChar, devBlock, findBelow bus "pci".toList "devices".toList s,
    findBelow bus "platform".toList "devices".toList s,
    findBelow bus "unknown".toList "devices".toList s⟩

def populateSysfs (root : NodeId) (s : Vfs ω) : Vfs ω :=
  match sysDirs root s with
  | none => s
  | some dirs => hub.foldl (populateDevice P dirs) s

/-! ## Operations -/

def mount (n : NodeId) (s : Vfs ω) : VfsResult ω Unit :=
  some (.ok (), populateSysfs P hub n (prebuild P n (setDir P n .Root s)))

def findDeviceByName (name : Str) : Option (DeviceInfo × Option Str) :=
  hub.findSome? fun entry => entry.bind fun e =>
    if e.info.name = name then some (e.info, e.driverName) else none

/-- What `open` makes of a node for a device, by the kind of the directory. -/
def openIn (dir : SysDirKind) (info : DeviceInfo) (driver : Option Str) (n : NodeId) (s : Vfs ω) :
    VfsResult ω Unit :=
  let link (target : Str) : VfsResult ω Unit := some (.ok (), setSymlink P n target s)
  let missing : VfsResult ω Unit := some (.error .NotFound, s)
  match dir with
  | .Devices => some (.ok (), setFile P n (deviceInfoText info driver) s)
  | .DevChar => if info.kind = .Char then link (devPath info) else missing
  | .DevBlock => if info.kind = .Block then link (devPath info) else missing
  | .ClassChar | .ClassBlock | .ClassNet | .ClassDisplay | .ClassMisc =>
    if classDirForKind info.kind = dir then link (sysPath info) else missing
  | .BusPciDevices => if info.bus = .Pci then link (sysPath info) else missing
  | .BusPlatformDevices => if info.bus = .Platform then link (sysPath info) else missing
  | .BusUnknownDevices => if info.bus = .Unknown then link (sysPath info) else missing
  | _ => missing

def openEntry (parent : NodeId) (name : Str) (n : NodeId) (s : Vfs ω) : VfsResult ω Unit :=
  match P.get parent s with
  | .error e => some (.error e, s)
  | .ok (_, handle) =>
    match handle.dirKind, findDeviceByName hub name with
    | none, _ => some (.error .NotFound, s)
    | _, none => some (.error .NotFound, s)
    | some dir, some (info, driver) => openIn P dir info driver n s

/-- The bytes of a text from an offset on. -/
def readText (data : List UInt8) (offset len : Nat) : List UInt8 :=
  if data.length ≤ offset then []
  else Bytes.slice offset (min data.length (offset + len) - offset) data

def read (n : NodeId) (offset len : Nat) (s : Vfs ω) : VfsResult ω (List UInt8) :=
  match P.get n s with
  | .error e => some (.error e, s)
  | .ok (_, handle) =>
    if handle.kind = .Dir then some (.error .Invalid, s)
    else some (.ok (readText handle.data offset len), s)

/-- A vector has fewer than `2 ^ 63` bytes: an end beyond that ends in a panic. -/
def write (n : NodeId) (offset : Nat) (buf : List UInt8) (s : Vfs ω) : VfsResult ω Nat :=
  match P.get n s with
  | .error e => some (.error e, s)
  | .ok (h, handle) =>
    if handle.kind = .Dir then some (.error .Invalid, s)
    else
      let stop := offset + buf.length
      if 2 ^ 63 ≤ stop then none
      else
        let data := Bytes.store offset buf (Bytes.fill stop handle.data)
        let s := { s with heap := Function.update s.heap h (some (P.box { handle with data })) }
        some (.ok buf.length, s.modify n ({ · with size := UInt64.ofNat data.length }))

def ops : VfsOps ω where
  mount _ n := mount P hub n
  unmount n s := some (.ok (), s.freeHandle n)
  «open» := openEntry P hub
  read := read P
  write := write P
  mkdir _ _ n s := some (.ok (), setDir P n .Root s)
  mkfile _ _ n s := some (.ok (), setFile P n [] s)
  delete _ n s := some (.ok (), s.freeHandle n)
  rename n newName s := some (.ok (), s.modify n ({ · with name := newName }))

end Sysfs

end BoruixKernel
