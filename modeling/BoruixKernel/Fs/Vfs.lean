import BoruixKernel.Fs.Path
import BoruixKernel.Lib.Outcome

/-!
# The virtual filesystem

A tree of nodes over several filesystems.  Nodes are numbered in the order in which they
are allocated, so that the number of a node stands for its `Arc`.  A weak reference can
be upgraded as long as the node has not been dropped; which of the nodes outside the tree
are dropped, and when, depends on who else holds them.

A filesystem keeps what it knows of a node in a box of its own type and stores the
address of the box as an untyped handle.  Here the boxes of all filesystems are in one
heap over a type `ω`, and a cast is a partial function out of `ω` (`Boxed`).  The record
`calls` lists the calls of filesystem operations on nodes that have a handle, with what
the handle referred to at that moment; the source has no such record.

`vfs_open` goes back to itself for every symbolic link on the way, with a new budget, and
need not return.  It takes a bound on the depth of that recursion.
-/

namespace BoruixKernel

open Function

inductive VfsError where
  | Invalid
  | NotFound
  | NotDir
  | Exists
  | NoDev
  | Busy
  | NotEmpty
  | NotSupported
  | Io
deriving DecidableEq, Repr

/-! ## Nodes -/

inductive VfsNodeType where
  | None
  | Dir
  | Block
  | Stream
  | Symlink
  | Pipe
  | Socket
deriving DecidableEq, Repr

abbrev NodeId := Nat

/-- The address of a box. -/
abbrev Handle := Nat

structure VfsNodeMeta where
  name : Str
  nodeType : VfsNodeType
  fsid : Nat
  size : UInt64
  mode : UInt16
  parent : Option NodeId
  children : List NodeId
  linkto : Option NodeId
  linktoPath : Option Str
  handle : Option Handle
  isMount : Bool
deriving DecidableEq, Repr

/-- A call of an operation of the filesystem `fsid` on a node with a handle, and what the
handle refers to then: nothing if the box has been freed. -/
structure FsCall (ω : Type) where
  fsid : Nat
  object : Option ω

/-- The nodes, and the boxes of the filesystems. -/
structure Vfs (ω : Type) where
  nodes : NodeId → VfsNodeMeta
  next : NodeId
  heap : Handle → Option ω
  nextHandle : Handle
  dropped : NodeId → Bool
  calls : List (FsCall ω)

/-- The outcome of a VFS function. -/
abbrev VfsResult (ω α : Type) := Outcome (Vfs ω) VfsError α

/-- The boxes of one filesystem among those of all. -/
structure Boxed (α ω : Type) where
  box : α → ω
  unbox : ω → Option α
  unbox_box : ∀ a, unbox (box a) = some a

/-- The boxes of one filesystem alone. -/
def Boxed.self (α : Type) : Boxed α α := ⟨id, some, fun _ => rfl⟩

def vfsRoot : NodeId := 0

def VfsNodeMeta.newRoot : VfsNodeMeta where
  name := ['/']
  nodeType := .Dir
  fsid := 0
  size := 0
  mode := 0o755
  parent := none
  children := []
  linkto := none
  linktoPath := none
  handle := none
  isMount := false

variable {ω : Type}

def vfsInit : Vfs ω where
  nodes _ := .newRoot
  next := 1
  heap _ := none
  nextHandle := 1
  dropped _ := false
  calls := []

namespace Vfs

variable (s : Vfs ω) (n : NodeId)

def modify (f : VfsNodeMeta → VfsNodeMeta) : Vfs ω :=
  { s with nodes := update s.nodes n (f (s.nodes n)) }

/-- `upgrade` of a weak reference. -/
def upgrade (w : Option NodeId) : Option NodeId := w.filter (!s.dropped ·)

/-- Put an operation of a filesystem on a node on record. -/
def calling (fsid : Nat) : Vfs ω :=
  match (s.nodes n).handle with
  | none => s
  | some h => { s with calls := ⟨fsid, s.heap h⟩ :: s.calls }

/-- `set_handle`: the value goes into a new box. -/
def setHandle (value : ω) : Vfs ω :=
  { s with
    nodes := update s.nodes n { s.nodes n with handle := some s.nextHandle }
    heap := update s.heap s.nextHandle (some value)
    nextHandle := s.nextHandle + 1 }

def freeHandle : Vfs ω :=
  match (s.nodes n).handle with
  | none => s
  | some h => { s.modify n ({ · with handle := none }) with heap := update s.heap h none }

/-- A new box for a node, with the type of the node. -/
def fill (value : ω) (type : VfsNodeType) : Vfs ω :=
  (s.setHandle n value).modify n ({ · with nodeType := type })

/-! The record is all that `calling` changes. -/

variable (fsid : Nat)

@[simp] theorem calling_nodes : (s.calling n fsid).nodes = s.nodes := by
  rw [calling]
  split <;> rfl

@[simp] theorem calling_next : (s.calling n fsid).next = s.next := by
  rw [calling]
  split <;> rfl

@[simp] theorem calling_heap : (s.calling n fsid).heap = s.heap := by
  rw [calling]
  split <;> rfl

@[simp] theorem calling_nextHandle : (s.calling n fsid).nextHandle = s.nextHandle := by
  rw [calling]
  split <;> rfl

@[simp] theorem calling_dropped : (s.calling n fsid).dropped = s.dropped := by
  rw [calling]
  split <;> rfl

end Vfs

/-- `get_handle`: the box of a node, with its address. -/
def Boxed.get {α : Type} (P : Boxed α ω) (n : NodeId) (s : Vfs ω) : Except VfsError (Handle × α) :=
  match (s.nodes n).handle with
  | none => .error .Invalid
  | some h =>
    match (s.heap h).bind P.unbox with
    | none => .error .Invalid
    | some value => .ok (h, value)

/-! ## Filesystems -/

/-- The trait `VfsOps`, as far as the functions below call it.  `open`, `mkdir`, `mkfile` and
`delete` get the parent first; `read` returns the bytes it put into the buffer. -/
structure VfsOps (ω : Type) where
  mount : Option Str → NodeId → Vfs ω → VfsResult ω Unit
  unmount : NodeId → Vfs ω → VfsResult ω Unit
  «open» : NodeId → Str → NodeId → Vfs ω → VfsResult ω Unit
  read : NodeId → Nat → Nat → Vfs ω → VfsResult ω (List UInt8)
  write : NodeId → Nat → List UInt8 → Vfs ω → VfsResult ω Nat
  mkdir : NodeId → Str → NodeId → Vfs ω → VfsResult ω Unit
  mkfile : NodeId → Str → NodeId → Vfs ω → VfsResult ω Unit
  delete : NodeId → NodeId → Vfs ω → VfsResult ω Unit
  rename : NodeId → Str → Vfs ω → VfsResult ω Unit

/-- The bodies that the trait `VfsOps` has for the operations a filesystem leaves out. -/
def VfsOps.defaults : VfsOps ω where
  mount _ _ s := some (.error .NotSupported, s)
  unmount _ s := some (.error .NotSupported, s)
  «open» _ _ _ s := some (.error .NotSupported, s)
  read _ _ _ s := some (.error .NotSupported, s)
  write _ _ _ s := some (.error .NotSupported, s)
  mkdir _ _ _ s := some (.ok (), s)
  mkfile _ _ _ s := some (.ok (), s)
  delete _ _ s := some (.ok (), s)
  rename _ _ s := some (.ok (), s)

structure VfsFs (ω : Type) where
  name : Str
  fsid : Nat
  ops : VfsOps ω

abbrev Registry (ω : Type) := List (VfsFs ω)

/-- `vfs_register_fs`: the numbers are given out from one on. -/
def Registry.register (reg : Registry ω) (name : Str) (ops : Nat → VfsOps ω) : Registry ω :=
  reg ++ [⟨name, reg.length + 1, ops (reg.length + 1)⟩]

def Registry.getFilesystem (reg : Registry ω) (name : Str) : Option (VfsFs ω) :=
  reg.find? (·.name == name)

def Registry.getFilesystemById (reg : Registry ω) (fsid : Nat) : Option (VfsFs ω) :=
  reg.find? (·.fsid == fsid)

/-! ## Nodes in the tree -/

/-- `vfs_child_append`: a new node with the filesystem of its parent. -/
def vfsChildAppend (parent : NodeId) (name : Str) (s : Vfs ω) : NodeId × Vfs ω :=
  let node : VfsNodeMeta :=
    { name, nodeType := .None, fsid := (s.nodes parent).fsid, size := 0, mode := 0o777,
      parent := some parent, children := [], linkto := none, linktoPath := none, handle := none,
      isMount := false }
  let s' : Vfs ω := { s with nodes := update s.nodes s.next node, next := s.next + 1 }
  (s.next, s'.modify parent fun m => { m with children := m.children ++ [s.next] })

/-- `vfs_node_alloc` without a parent. -/
def vfsNodeAlloc (name : Str) (s : Vfs ω) : NodeId × Vfs ω :=
  let node : VfsNodeMeta :=
    { name, nodeType := .None, fsid := 0, size := 0, mode := 0o777, parent := none, children := [],
      linkto := none, linktoPath := none, handle := none, isMount := false }
  (s.next, { s with nodes := update s.nodes s.next node, next := s.next + 1 })

def vfsChildFind (parent : NodeId) (name : Str) (s : Vfs ω) : Option NodeId :=
  (s.nodes parent).children.find? fun n => (s.nodes n).name == name

/-- Take a node out of the children of another one. -/
def Vfs.detach (s : Vfs ω) (parent node : NodeId) : Vfs ω :=
  s.modify parent fun m => { m with children := m.children.filter (· ≠ node) }

def vfsFree (node : NodeId) (s : Vfs ω) : Vfs ω :=
  let s := match s.upgrade (s.nodes node).parent with
    | some parent => s.detach parent node
    | none => s
  s.modify node fun m => { m with children := [], handle := none }

/-- The names on the way up to the root, from the top.  Every node is younger than its
parent, so `n + 1` rounds are enough for the node `n`. -/
def namesUp (s : Vfs ω) : Nat → NodeId → List Str
  | 0, _ => []
  | fuel + 1, n =>
    let above := match s.upgrade (s.nodes n).parent with
      | some parent => namesUp s fuel parent
      | none => []
    if (s.nodes n).name = ['/'] then above else above ++ [(s.nodes n).name]

def vfsGetFullpath (s : Vfs ω) (n : NodeId) : Str :=
  let out := '/' :: joinParts (namesUp s (n + 1) n)
  if 1 < out.length ∧ out.getLast? = some '/' then out.dropLast else out

/-! ## Opening -/

section Operations

variable (reg : Registry ω)

/-- One component of a path: a child of the node, or what the filesystem finds. -/
def vfsLookup (current : NodeId) (part : Str) (s : Vfs ω) : VfsResult ω NodeId :=
  match vfsChildFind current part s with
  | some n => some (.ok n, s)
  | none =>
    match reg.getFilesystemById (s.nodes current).fsid with
    | none => some (.error .NoDev, s)
    | some fs =>
      let (node, s) := vfsChildAppend current part s
      match fs.ops.open current part node ((s.calling current fs.fsid).calling node fs.fsid) with
      | none => none
      | some (.ok (), s) => some (.ok node, s)
      | some (.error .NotSupported, s) => some (.error .NotFound, vfsFree node s)
      | some (.error e, s) => some (.error e, vfsFree node s)

/-- The loop of `vfs_open` over the components.  `resolve` follows a symbolic link. -/
def vfsOpenParts (resolve : NodeId → Vfs ω → VfsResult ω (Option NodeId)) :
    List Str → Nat → NodeId → Vfs ω → VfsResult ω NodeId
  | [], _, current, s => some (.ok current, s)
  | part :: parts, followBudget, current, s =>
    if part = [] then vfsOpenParts resolve parts followBudget current s
    else
      (vfsLookup reg current part s).andThen fun next s =>
        if (s.nodes next).nodeType = .Symlink then
          match followBudget with
          | 0 => some (.error .Invalid, s)
          | followBudget + 1 =>
            (resolve next s).andThen fun target s =>
              match target with
              | some target => vfsOpenParts resolve parts followBudget target s
              | none => some (.error .NotFound, s)
        else vfsOpenParts resolve parts followBudget next s

/-- `vfs_resolve_symlink`, with the `vfs_open` it calls. -/
def vfsResolveSymlink (openPath : Str → Vfs ω → VfsResult ω NodeId) (node : NodeId) (s : Vfs ω) :
    VfsResult ω (Option NodeId) :=
  let m := s.nodes node
  match s.upgrade m.linkto with
  | some link => some (.ok (some link), s)
  | none =>
    match m.linktoPath with
    | some path =>
      let base := match s.upgrade m.parent with
        | some parent => vfsGetFullpath s parent
        | none => ['/']
      let full := if path.head? = some '/' then path else pathJoin base path
      (openPath full s).andThen fun target s => some (.ok (some target), s)
    | none => some (.ok none, s)

/-- `vfs_open`, with a bound on the depth of the recursion. -/
def vfsOpen : Nat → Str → Vfs ω → VfsResult ω NodeId
  | 0, _, _ => none
  | depth + 1, path, s =>
    let path := normalizePath path
    if path = ['/'] then some (.ok vfsRoot, s)
    else
      vfsOpenParts reg (vfsResolveSymlink (vfsOpen depth)) ((trimStart path).splitOn '/') 8 vfsRoot s

/-! ## Creating and deleting -/

/-- The loop of `vfs_mkdir` over the components. -/
def vfsMkdirParts : List Str → NodeId → Vfs ω → VfsResult ω Unit
  | [], _, s => some (.ok (), s)
  | part :: parts, current, s =>
    if part = [] then vfsMkdirParts parts current s
    else
      match vfsChildFind current part s with
      | some existing =>
        if (s.nodes existing).nodeType = .Dir then vfsMkdirParts parts existing s
        else some (.error .NotDir, s)
      | none =>
        let (node, s) := vfsChildAppend current part s
        let s := s.modify node ({ · with nodeType := .Dir })
        let made := match reg.getFilesystemById (s.nodes current).fsid with
          | some fs => fs.ops.mkdir current part node ((s.calling current fs.fsid).calling node fs.fsid)
          | none => some (.ok (), s)
        made.andThen fun _ s => vfsMkdirParts parts node s

def vfsMkdir (path : Str) (s : Vfs ω) : VfsResult ω Unit :=
  vfsMkdirParts reg ((trimStart (absolute (normalizePath path))).splitOn '/') vfsRoot s

variable (depth : Nat)

def vfsMkfile (path : Str) (s : Vfs ω) : VfsResult ω NodeId :=
  let parts := (trimStart (absolute (normalizePath path))).splitOn '/'
  match parts.getLast? with
  | none => some (.error .Invalid, s)
  | some name =>
    (vfsOpen reg depth ('/' :: joinParts parts.dropLast) s).andThen fun parent s =>
      if (vfsChildFind parent name s).isSome then some (.error .Exists, s)
      else
        let (node, s) := vfsChildAppend parent name s
        let made := match reg.getFilesystemById (s.nodes parent).fsid with
          | some fs => fs.ops.mkfile parent name node ((s.calling parent fs.fsid).calling node fs.fsid)
          | none => some (.ok (), s)
        made.andThen fun _ s => some (.ok node, s)

def vfsLink (target linkPath : Str) (s : Vfs ω) : VfsResult ω NodeId :=
  (vfsOpen reg depth target s).andThen fun targetNode s =>
    (vfsMkfile reg depth linkPath s).andThen fun linkNode s =>
      let t := s.nodes targetNode
      some (.ok linkNode, s.modify linkNode fun m =>
        { m with linkto := some targetNode, nodeType := t.nodeType, handle := t.handle,
                 size := t.size, mode := t.mode })

def vfsSymlink (target linkPath : Str) (s : Vfs ω) : VfsResult ω NodeId :=
  (vfsMkfile reg depth linkPath s).andThen fun linkNode s =>
    some (.ok linkNode, s.modify linkNode fun m =>
      { m with nodeType := .Symlink, linktoPath := some target })

def vfsDelete (path : Str) (s : Vfs ω) : VfsResult ω Unit :=
  (vfsOpen reg depth path s).andThen fun node s =>
    match s.upgrade (s.nodes node).parent with
    | none => some (.error .Invalid, s)
    | some parent =>
      if (s.nodes node).nodeType = .Dir ∧ (s.nodes node).children ≠ [] then
        some (.error .NotEmpty, s)
      else
        let deleted := match reg.getFilesystemById (s.nodes parent).fsid with
          | some fs => fs.ops.delete parent node ((s.calling parent fs.fsid).calling node fs.fsid)
          | none => some (.ok (), s)
        deleted.andThen fun _ s => some (.ok (), s.detach parent node)

def vfsRename (path newName : Str) (s : Vfs ω) : VfsResult ω Unit :=
  (vfsOpen reg depth path s).andThen fun node s =>
    let renamed := match reg.getFilesystemById (s.nodes node).fsid with
      | some fs => fs.ops.rename node newName (s.calling node fs.fsid)
      | none => some (.ok (), s)
    renamed.andThen fun _ s => some (.ok (), s.modify node ({ · with name := newName }))

/-! ## Reading, writing and mounting -/

def vfsRead (node : NodeId) (offset len : Nat) (s : Vfs ω) : VfsResult ω (List UInt8) :=
  match reg.getFilesystemById (s.nodes node).fsid with
  | none => some (.error .NoDev, s)
  | some fs => fs.ops.read node offset len (s.calling node fs.fsid)

def vfsWrite (node : NodeId) (offset : Nat) (buf : List UInt8) (s : Vfs ω) : VfsResult ω Nat :=
  match reg.getFilesystemById (s.nodes node).fsid with
  | none => some (.error .NoDev, s)
  | some fs => fs.ops.write node offset buf (s.calling node fs.fsid)

def vfsMount (src : Option Str) (fstype : Str) (mountpoint : NodeId) (s : Vfs ω) :
    VfsResult ω Unit :=
  match reg.getFilesystem fstype with
  | none => some (.error .NoDev, s)
  | some fs =>
    let old := s.nodes mountpoint
    let s := s.modify mountpoint ({ · with fsid := fs.fsid, isMount := true })
    match fs.ops.mount src mountpoint (s.calling mountpoint fs.fsid) with
    | none => none
    | some (.ok (), s) => some (.ok (), s)
    | some (.error e, s) =>
      some (.error e, s.modify mountpoint ({ · with fsid := old.fsid, isMount := old.isMount }))

def vfsUnmount (path : Str) (s : Vfs ω) : VfsResult ω Unit :=
  (vfsOpen reg depth path s).andThen fun node s =>
    match reg.getFilesystemById (s.nodes node).fsid with
    | none => some (.error .NoDev, s)
    | some fs =>
      (fs.ops.unmount node (s.calling node fs.fsid)).andThen fun _ s =>
        some (.ok (), s.modify node ({ · with isMount := false }))

end Operations

/-! ## Runs -/

/-- A call of the VFS.  The functions that take a node get one that exists. -/
inductive VfsCall where
  | mkdir (path : Str)
  | mkfile (path : Str)
  | link (target linkPath : Str)
  | symlink (target linkPath : Str)
  | delete (path : Str)
  | rename (path newName : Str)
  | open (path : Str)
  | read (node : NodeId) (offset len : Nat)
  | write (node : NodeId) (offset : Nat) (buf : List UInt8)
  | mount (src : Option Str) (fstype : Str) (mountpoint : NodeId)
  | unmount (path : Str)

/-- The node that a call gets. -/
def VfsCall.node? : VfsCall → Option NodeId
  | read node .. | write node .. | mount _ _ node => some node
  | _ => none

/-- The state after a call, with the error if there is one. -/
def performVfsCall (reg : Registry ω) (depth : Nat) (s : Vfs ω) : VfsCall → VfsResult ω Unit
  | .mkdir path => vfsMkdir reg path s
  | .mkfile path => (vfsMkfile reg depth path s).andThen fun _ s => some (.ok (), s)
  | .link target linkPath => (vfsLink reg depth target linkPath s).andThen fun _ s => some (.ok (), s)
  | .symlink target linkPath =>
    (vfsSymlink reg depth target linkPath s).andThen fun _ s => some (.ok (), s)
  | .delete path => vfsDelete reg depth path s
  | .rename path newName => vfsRename reg depth path newName s
  | .open path => (vfsOpen reg depth path s).andThen fun _ s => some (.ok (), s)
  | .read node offset len => (vfsRead reg node offset len s).andThen fun _ s => some (.ok (), s)
  | .write node offset buf => (vfsWrite reg node offset buf s).andThen fun _ s => some (.ok (), s)
  | .mount src fstype mountpoint => vfsMount reg src fstype mountpoint s
  | .unmount path => vfsUnmount reg depth path s

/-- The states reached by calls that satisfy a condition.  Between the calls, a node that
nothing in memory has as a child may be dropped. -/
inductive VfsRun (reg : Registry ω) (ok : VfsCall → Vfs ω → Prop) : Vfs ω → Prop
  | init : VfsRun reg ok vfsInit
  | call {s s' : Vfs ω} {c : VfsCall} {depth : Nat} {r : Except VfsError Unit} : VfsRun reg ok s →
      ok c s → (∀ n, c.node? = some n → n < s.next ∧ s.dropped n = false) →
      performVfsCall reg depth s c = some (r, s') → VfsRun reg ok s'
  | drop {s : Vfs ω} {n : NodeId} : VfsRun reg ok s → n < s.next → n ≠ vfsRoot →
      (∀ p, s.dropped p = false → n ∉ (s.nodes p).children) →
      VfsRun reg ok { s with dropped := update s.dropped n true }

end BoruixKernel
