import BoruixKernel.Fs.FatDir

/-!
# FatFs

The operations of the filesystem, as the VFS calls them.  The node of a file or directory of
a volume has a box with a `FatNode`.  The nodes are made when the volume is mounted
(`populate_dir`), when an entry is created, and when the VFS asks for a name that is not among
the children (`open`).

The volume is on a device, which is a node of the VFS too.  `reg` holds the filesystems that
serve the devices; they are registered before FatFs.
-/

namespace BoruixKernel

open DeviceProg

namespace Fatfs

variable {ω : Type} (reg : Registry ω) (depth : Nat) (P : Boxed FatNode ω) (fsid : Nat)

/-- `read_bytes` and `write_bytes`: a node as a device. -/
def vfsDevice (dev : NodeId) : Device (Vfs ω) VfsError := ⟨vfsRead reg dev, vfsWrite reg dev⟩

/-- A program on the device of a volume. -/
def onDevice {α : Type} (st : FatFsState) (prog : FatProg α) (s : Vfs ω) : VfsResult ω α :=
  exec (vfsDevice reg st.dev) prog s

/-- `get_handle`: the box of a node, with its address. -/
def getHandle (n : NodeId) (s : Vfs ω) : Except VfsError (Handle × FatNode) :=
  match (s.nodes n).handle with
  | none => .error .Invalid
  | some h =>
    match (s.heap h).bind P.unbox with
    | none => .error .Invalid
    | some node => .ok (h, node)

/-- Go on with the box of a node. -/
def withHandle {α : Type} (n : NodeId) (s : Vfs ω) (k : Handle → FatNode → VfsResult ω α) : VfsResult ω α :=
  match getHandle P n s with
  | .error e => some (.error e, s)
  | .ok (h, node) => k h node

def storeBox (h : Handle) (node : FatNode) (s : Vfs ω) : Vfs ω :=
  { s with heap := Function.update s.heap h (some (P.box node)) }

def nodeTypeOf (isDir : Bool) : VfsNodeType := if isDir then .Dir else .Stream

/-- A new box for a node, with its type and size. -/
def fillNode (n : NodeId) (node : FatNode) (s : Vfs ω) : Vfs ω :=
  (s.setHandle n (P.box node)).modify n
    ({ · with nodeType := nodeTypeOf node.isDir, size := UInt64.ofNat node.size })

def createNode (parent : NodeId) (name : Str) (node : FatNode) (s : Vfs ω) : NodeId × Vfs ω :=
  match vfsChildFind parent name s with
  | some existing => (existing, s)
  | none =>
    let (n, s) := vfsChildAppend parent name s
    (n, fillNode P n node s)

/-- `populate_dir`, with the levels that are left: at a depth above 32 it does nothing. -/
def populateDir (st : FatFsState) : Nat → NodeId → Nat → Vfs ω → VfsResult ω Unit
  | 0, _, _, s => some (.ok (), s)
  | levels + 1, dir, dirCluster, s =>
    (onDevice reg st (st.listDirEntries dirCluster) s).andThen fun entries s =>
      entries.foldl (fun r e => r.andThen fun _ s =>
        let (n, s) := createNode P dir e.1 e.2 s
        if e.2.isDir then populateDir st levels n e.2.firstCluster s else some (.ok (), s))
        (some (.ok (), s))

/-- The errors of `vfs_open` and `vfs_read` in `build_state` are replaced. -/
def replaceError {α : Type} (e : VfsError) : VfsResult ω α → VfsResult ω α
  | some (.error _, s) => some (.error e, s)
  | r => r

def buildState (src : Str) (s : Vfs ω) : VfsResult ω FatFsState :=
  (replaceError .NotFound (vfsOpen reg depth src s)).andThen fun dev s =>
    (replaceError .Io (vfsRead reg dev 0 512 s)).andThen fun sector s =>
      match parseBpb (Bytes.fill 512 sector) with
      | none => some (.error .Invalid, s)
      | some bpb =>
        if bpb.rootEntryCount ≠ 0 then some (.error .NotSupported, s)
        else some (.ok (bpb.layout dev), s)

def mount (src : Option Str) (n : NodeId) (s : Vfs ω) : VfsResult ω Unit :=
  match src with
  | none => some (.error .Invalid, s)
  | some src =>
    (buildState reg depth src s).andThen fun st s =>
      let root : FatNode := ⟨st, st.bpb.rootCluster, 0, true, none⟩
      let s := (s.setHandle n (P.box root)).modify n ({ · with nodeType := .Dir })
      populateDir reg P st 33 n st.bpb.rootCluster s

/-- The walk of `unmount`: the children first. -/
def walk : Nat → NodeId → Vfs ω → Option (Vfs ω)
  | 0, _, _ => none
  | fuel + 1, n, s =>
    ((s.nodes n).children.foldlM (fun s c => walk fuel c s) s).map fun s =>
      (s.calling n fsid).freeHandle n

/-- `open`: the first entry whose name is the same up to case. -/
def openEntry (parent : NodeId) (name : Str) (n : NodeId) (s : Vfs ω) : VfsResult ω Unit :=
  withHandle P parent s fun _ dir =>
    if !dir.isDir then some (.error .NotDir, s)
    else
      (onDevice reg dir.fs (dir.fs.listDirEntries dir.firstCluster) s).andThen fun entries s =>
        match entries.find? fun e => nameEq e.1 name with
        | none => some (.error .NotFound, s)
        | some (_, node) =>
          let s := fillNode P n node s
          if node.isDir then populateDir reg P dir.fs 33 n node.firstCluster s else some (.ok (), s)

def createEntry (isDir : Bool) (parent : NodeId) (name : Str) (n : NodeId) (s : Vfs ω) : VfsResult ω Unit :=
  withHandle P parent s fun _ dir =>
    if !dir.isDir then some (.error .NotDir, s)
    else
      (onDevice reg dir.fs (dir.fs.createEntry dir.firstCluster name isDir) s).andThen fun node s =>
        some (.ok (), fillNode P n node s)

def read (n : NodeId) (offset len : Nat) (s : Vfs ω) : VfsResult ω (List UInt8) :=
  withHandle P n s fun _ node => onDevice reg node.fs (node.read offset len) s

/-- The handle is stored before the directory entry is written. -/
def write (n : NodeId) (offset : Nat) (buf : List UInt8) (s : Vfs ω) : VfsResult ω Nat :=
  withHandle P n s fun h node =>
    (onDevice reg node.fs (node.writeData offset buf) s).andThen fun node' s =>
      if buf = [] then some (.ok 0, s)
      else
        (onDevice reg node.fs node'.updateEntryClusterAndSize (storeBox P h node' s)).andThen fun _ s =>
          some (.ok buf.length, s.modify n ({ · with size := UInt64.ofNat node'.size }))

def delete (parent n : NodeId) (s : Vfs ω) : VfsResult ω Unit :=
  withHandle P n s fun _ node =>
    (onDevice reg node.fs (node.fs.deleteEntry node) s).andThen fun _ s =>
      some (.ok (), (s.freeHandle n).detach parent n)

/-- The offset of the new entry is stored before the old one is removed. -/
def rename (n : NodeId) (newName : Str) (s : Vfs ω) : VfsResult ω Unit :=
  withHandle P n s fun h node =>
    match node.entryOffset, s.upgrade (s.nodes n).parent with
    | none, _ => some (.error .Invalid, s)
    | _, none => some (.error .Invalid, s)
    | some offset, some parent =>
      withHandle P parent s fun _ dir =>
        if !dir.isDir then some (.error .NotDir, s)
        else
          (onDevice reg node.fs (node.fs.writeRenamed dir.firstCluster node newName) s).andThen
            fun shortOff s =>
              let s := storeBox P h { node with entryOffset := some shortOff } s
              (onDevice reg node.fs (FatFsState.removeOld offset) s).andThen fun _ s =>
                some (.ok (), s.modify n ({ · with name := newName }))

/-- The operations.  Every node is younger than its parent, so the walk of `unmount` is not
deeper than there are nodes. -/
def ops : VfsOps ω where
  mount := mount reg depth P
  unmount n s := (walk fsid (s.next + 1) n s).map fun s => (.ok (), s)
  «open» := openEntry reg P
  read := read reg P
  write := write reg P
  mkdir := createEntry reg P true
  mkfile := createEntry reg P false
  delete := delete reg P
  rename := rename reg P

end Fatfs

end BoruixKernel
