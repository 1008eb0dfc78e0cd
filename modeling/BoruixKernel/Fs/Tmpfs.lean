import BoruixKernel.Fs.Vfs
import BoruixKernel.Lib.Bytes

/-!
# tmpfs

Files are kept in memory.  The node of a file has a box with its kind, its bytes and a
link count; directories have a box without bytes.  The tree itself is that of the VFS,
so `open` has nothing to add.

A cast of a handle to the box of another filesystem, or to a box that was freed, is
undefined in the source.  Here it is an error; the record of calls says that it happened.
-/

namespace BoruixKernel

inductive TmpfsKind where
  | Dir
  | File
  | Symlink
  | Char
  | Block
deriving DecidableEq, Repr

structure TmpfsFile where
  kind : TmpfsKind
  data : List UInt8
  linkCount : Nat
deriving DecidableEq, Repr

def TmpfsFile.new (kind : TmpfsKind) : TmpfsFile := ⟨kind, [], 1⟩

namespace Tmpfs

variable {ω : Type} (P : Boxed TmpfsFile ω) (fsid : Nat)

/-- `get_handle`: the box of a node, with its address. -/
def getHandle (n : NodeId) (s : Vfs ω) : Except VfsError (Handle × TmpfsFile) :=
  match (s.nodes n).handle with
  | none => .error .Invalid
  | some h =>
    match (s.heap h).bind P.unbox with
    | none => .error .Invalid
    | some file => .ok (h, file)

/-- `dec_link` on the box of a node; with the last link the box is freed. -/
def release (n : NodeId) (s : Vfs ω) : Vfs ω :=
  match getHandle P n s with
  | .error _ => s
  | .ok (h, file) =>
    if 1 < file.linkCount then
      let file := { file with linkCount := file.linkCount - 1 }
      { s with heap := Function.update s.heap h (some (P.box file)) }
    else s.freeHandle n

/-- The walk of `unmount`: the children first. -/
def walk : Nat → NodeId → Vfs ω → Option (Vfs ω)
  | 0, _, _ => none
  | fuel + 1, n, s =>
    ((s.nodes n).children.foldlM (fun s c => walk fuel c s) s).map fun s =>
      release P n (s.calling n fsid)

/-- A new box for a node, and its type. -/
def create (kind : TmpfsKind) (type : VfsNodeType) (n : NodeId) (s : Vfs ω) : VfsResult ω Unit :=
  some (.ok (), (s.setHandle n (P.box (.new kind))).modify n ({ · with nodeType := type }))

def read (n : NodeId) (offset len : Nat) (s : Vfs ω) : VfsResult ω (List UInt8) :=
  match getHandle P n s with
  | .error e => some (.error e, s)
  | .ok (_, file) =>
    if file.kind ≠ .File then some (.error .Invalid, s)
    else if file.data.length ≤ offset then some (.ok [], s)
    else some (.ok (Bytes.slice offset (min file.data.length (offset + len) - offset) file.data), s)

/-- A vector has fewer than `2 ^ 63` bytes: an end beyond that ends in a panic. -/
def write (n : NodeId) (offset : Nat) (buf : List UInt8) (s : Vfs ω) : VfsResult ω Nat :=
  match getHandle P n s with
  | .error e => some (.error e, s)
  | .ok (h, file) =>
    if file.kind ≠ .File then some (.error .Invalid, s)
    else
      let stop := offset + buf.length
      if 2 ^ 63 ≤ stop then none
      else
        let data := Bytes.store offset buf (Bytes.fill stop file.data)
        let s := { s with heap := Function.update s.heap h (some (P.box { file with data })) }
        some (.ok buf.length, s.modify n ({ · with size := UInt64.ofNat data.length }))

/-- The operations.  Every node is younger than its parent, so the walk of `unmount` is not
deeper than there are nodes. -/
def ops : VfsOps ω where
  mount _ n := create P .Dir .Dir n
  unmount n s := (walk P fsid (s.next + 1) n s).map fun s => (.ok (), s)
  «open» _ _ _ s := some (.error .NotSupported, s)
  read := read P
  write := write P
  mkdir _ _ n := create P .Dir .Dir n
  mkfile _ _ n := create P .File .None n
  delete _ n s := some (.ok (), release P n s)
  rename n newName s := some (.ok (), s.modify n ({ · with name := newName }))

end Tmpfs

end BoruixKernel
