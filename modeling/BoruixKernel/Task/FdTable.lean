import Mathlib

/-!
# Descriptor tables

A table has a vector of handles and a vector of flags, which grow together and never
shrink.  Handles are shared between tables, so they are numbered and kept in a store of
their own; a handle counts the slots that hold it.

Indices are `usize`: `newfd + 1` is taken modulo `2 ^ 64`.  An operation that panics has
no value.  A vector panics when it is asked for more than `isize::MAX` bytes; a smaller
request is taken to be granted.
-/

namespace BoruixKernel

inductive FdError where
  | Invalid
  | NotFound
  | NoSpace
  | Io
deriving DecidableEq, Repr

/-- An open file.  The node is that of the `VfsFile` behind it. -/
structure FileHandle where
  node : Nat
  flags : UInt32
  offset : Nat
  refcount : Nat
deriving DecidableEq, Repr

def FileHandle.new (node : Nat) (flags : UInt32) : FileHandle := ⟨node, flags, 0, 1⟩

abbrev HandleId := Nat

abbrev Handles := HandleId → FileHandle

/-- `refcount.fetch_add(1)`. -/
def Handles.incRef (hs : Handles) (h : HandleId) : Handles :=
  Function.update hs h { hs h with refcount := (hs h).refcount + 1 }

/-- `refcount.fetch_sub(1)`, which wraps around. -/
def Handles.decRef (hs : Handles) (h : HandleId) : Handles :=
  Function.update hs h
    { hs h with refcount := if (hs h).refcount = 0 then 2 ^ 64 - 1 else (hs h).refcount - 1 }

structure FdTable where
  entries : List (Option HandleId)
  cloexec : List Bool
  /-- The vectors grow together. -/
  length_eq : cloexec.length = entries.length
deriving DecidableEq, Repr

/-- The largest descriptor that `alloc_fd` hands out. -/
def MaxFd : Nat := 1000000

namespace FdTable

/-- What an operation returns, with the table and the handles after it. -/
abbrev FdOutcome (α : Type) := Option (Except FdError α × FdTable × Handles)

def new : FdTable := ⟨[], [], rfl⟩

/-- Pointers take 8 bytes; `isize::MAX` is `2 ^ 63 - 1`. -/
def ensureLen (len : Nat) (t : FdTable) : Option FdTable :=
  if t.entries.length < len then
    if 2 ^ 63 ≤ 8 * len then none
    else some ⟨t.entries ++ List.replicate (len - t.entries.length) none,
      t.cloexec ++ List.replicate (len - t.entries.length) false, by simp [t.length_eq]⟩
  else some t

/-- Write both vectors at an index. -/
def setSlot (t : FdTable) (fd : Nat) (entry : Option HandleId) (cloexec : Bool) : FdTable :=
  ⟨t.entries.set fd entry, t.cloexec.set fd cloexec, by simp [t.length_eq]⟩

/-- The loop of `alloc_fd`, with the number of indices that are left. -/
def allocLoop (handle : HandleId) (cloexec : Bool) :
    Nat → Nat → FdTable → Option (Except FdError Nat × FdTable)
  | 0, _, t => some (.error .NoSpace, t)
  | left + 1, idx, t =>
    (t.ensureLen (idx + 1)).bind fun t =>
      match t.entries[idx]? with
      | none => none
      | some none => some (.ok idx, t.setSlot idx (some handle) cloexec)
      | some (some _) => allocLoop handle cloexec left (idx + 1) t

def allocFd (minFd : Nat) (handle : HandleId) (cloexec : Bool) (t : FdTable) :
    Option (Except FdError Nat × FdTable) :=
  if MaxFd < minFd then some (.error .Invalid, t)
  else allocLoop handle cloexec (MaxFd + 1 - minFd) minFd t

def getFd (t : FdTable) (fd : Nat) : Option HandleId := t.entries[fd]?.join

def closeFd (fd : Nat) (t : FdTable) (hs : Handles) : Except FdError Unit × FdTable × Handles :=
  match t.entries[fd]? with
  | none => (.error .NotFound, t, hs)
  | some entry =>
    (.ok (), t.setSlot fd none false,
      match entry with
      | some h => hs.decRef h
      | none => hs)

def dup (fd minFd : Nat) (cloexec : Bool) (t : FdTable) (hs : Handles) : FdOutcome Nat :=
  match t.getFd fd with
  | none => some (.error .NotFound, t, hs)
  | some handle => (t.allocFd minFd handle cloexec).map fun (r, t) => (r, t, hs.incRef handle)

def dup2 (oldfd newfd : Nat) (cloexec : Bool) (t : FdTable) (hs : Handles) : FdOutcome Nat :=
  match t.getFd oldfd with
  | none => some (.error .NotFound, t, hs)
  | some handle =>
    (t.ensureLen ((newfd + 1) % 2 ^ 64)).bind fun t =>
      match t.entries[newfd]? with
      | none => none
      | some entry =>
        if oldfd = newfd then some (.ok newfd, t.setSlot newfd entry cloexec, hs)
        else
          let (t, hs) := if entry.isSome then (t.closeFd newfd hs).2 else (t, hs)
          some (.ok newfd, t.setSlot newfd (some handle) cloexec, hs.incRef handle)

def dup3 (oldfd newfd : Nat) (cloexec : Bool) (t : FdTable) (hs : Handles) : FdOutcome Nat :=
  if oldfd = newfd then some (.error .Invalid, t, hs) else t.dup2 oldfd newfd cloexec hs

/-- The new table, and the handles it now holds as well. -/
def forkClone (t : FdTable) (hs : Handles) : FdTable × Handles :=
  (t, t.entries.foldl (fun hs e => match e with
    | some h => hs.incRef h
    | none => hs) hs)

/-- Close the descriptors of a list that satisfy a condition. -/
def closeWhere (p : FdTable → Nat → Bool) : List Nat → FdTable → Handles → FdTable × Handles
  | [], t, hs => (t, hs)
  | i :: is, t, hs =>
    if p t i then closeWhere p is (t.closeFd i hs).2.1 (t.closeFd i hs).2.2
    else closeWhere p is t hs

def isCloexec (t : FdTable) (fd : Nat) : Bool := t.cloexec[fd]?.getD false

def setCloexec (t : FdTable) (fd : Nat) (enabled : Bool) : FdTable :=
  ⟨t.entries, t.cloexec.set fd enabled, by simp [t.length_eq]⟩

def closeOnExec (t : FdTable) (hs : Handles) : FdTable × Handles :=
  closeWhere isCloexec (List.range t.entries.length) t hs

def closeAll (t : FdTable) (hs : Handles) : FdTable × Handles :=
  closeWhere (fun _ _ => true) (List.range t.entries.length) t hs

end FdTable

end BoruixKernel
