import BoruixKernel.Fs.Vfs
import BoruixKernel.Lib.Bytes
import BoruixKernel.Lib.DeviceProgram

/-!
# FAT32: the table, the clusters and the files

A volume has a boot sector, a number of copies of the table and the clusters.  The table
has an entry for every cluster, with the number of the next one; zero is a free cluster,
and from `0x0FFFFFF8` on an entry ends its chain.

The functions are programs over the device of the volume.  A loop over a chain that has
no bound of its own takes a number of rounds; with more rounds than the table has entries
the chain has a cycle, and the loop of the source would not end.
-/

namespace BoruixKernel

def FatEoc : Nat := 0x0FFFFFFF

/-- The BIOS parameter block. -/
structure FatBpb where
  bytesPerSector : Nat
  sectorsPerCluster : Nat
  reservedSectors : Nat
  numFats : Nat
  rootEntryCount : Nat
  totalSectors : Nat
  fatSizeSectors : Nat
  rootCluster : Nat
deriving DecidableEq, Repr

structure FatFsState where
  dev : NodeId
  bpb : FatBpb
  fatOffset : Nat
  fatSize : Nat
  dataOffset : Nat
  clusterCount : Nat
deriving DecidableEq, Repr

/-- What FatFs knows of a node. -/
structure FatNode where
  fs : FatFsState
  firstCluster : Nat
  size : Nat
  isDir : Bool
  entryOffset : Option Nat
deriving DecidableEq, Repr

/-- A program over the device of a volume. -/
abbrev FatProg := DeviceProg VfsError

open DeviceProg

/-- `read_bytes` into a buffer of zeros. -/
def readInto (off len : Nat) : FatProg (List UInt8) := do
  let bytes ← readBytes off len
  pure (Bytes.fill len bytes)

/-- `cluster_size_bytes`. -/
def FatBpb.clusterSize (bpb : FatBpb) : Nat := bpb.bytesPerSector * bpb.sectorsPerCluster

namespace FatFsState

variable (st : FatFsState)

def clusterSize : Nat := st.bpb.clusterSize

/-! ## The table -/

def fatEntryOffset (cluster : Nat) : Option Nat :=
  let off := st.fatOffset + cluster * 4
  if st.fatOffset + st.fatSize < off + 4 then none else some off

def readFatEntry (cluster : Nat) : FatProg Nat := do
  let off ← ofOption .Invalid (st.fatEntryOffset cluster)
  let buf ← readInto off 4
  pure (Bytes.toNat buf % 2 ^ 28)

/-- The loop of `write_fat_entry` over the copies of the table. -/
def writeCopies (off : Nat) (bytes : List UInt8) : List Nat → FatProg Unit
  | [] => pure ()
  | idx :: rest => do
    let _ ← writeBytes (off + idx * st.fatSize) bytes
    writeCopies off bytes rest

def writeFatEntry (cluster val : Nat) : FatProg Unit := do
  let off ← ofOption .Invalid (st.fatEntryOffset cluster)
  st.writeCopies off (Bytes.ofNat 4 (val % 2 ^ 28)) (List.range st.bpb.numFats)

def nextCluster (cluster : Nat) : FatProg (Option Nat) := do
  let val ← st.readFatEntry cluster
  pure (if 0x0FFFFFF8 ≤ val then none else some val)

/-! ## Clusters -/

def clusterOffset (cluster : Nat) : Option Nat :=
  if cluster < 2 then none else some (st.dataOffset + (cluster - 2) * st.clusterSize)

def readCluster (cluster : Nat) : FatProg (List UInt8) := do
  let off ← ofOption .Invalid (st.clusterOffset cluster)
  let bytes ← readBytes off st.clusterSize
  if bytes.length = st.clusterSize then pure bytes else fail .Io

def writeCluster (cluster : Nat) (data : List UInt8) : FatProg Unit := do
  let off ← ofOption .Invalid (st.clusterOffset cluster)
  let toCopy := min st.clusterSize data.length
  let n ← writeBytes off (data.take toCopy)
  if n = toCopy then pure () else fail .Io

def zeroCluster (cluster : Nat) : FatProg Unit :=
  st.writeCluster cluster (List.replicate st.clusterSize 0)

/-- The loop of `allocate_cluster`, with the number of clusters that are left. -/
def allocateFrom : Nat → Nat → FatProg Nat
  | 0, _ => fail .NoDev
  | left + 1, cluster => do
    let val ← st.readFatEntry cluster
    if val = 0 then
      st.writeFatEntry cluster FatEoc
      st.zeroCluster cluster
      pure cluster
    else allocateFrom left (cluster + 1)

def allocateCluster : FatProg Nat := st.allocateFrom st.clusterCount 2

/-- Rounds for a loop over a chain. -/
def rounds : Nat := st.fatSize / 4 + 1

/-- The loop of `free_chain`. -/
def freeChainFrom : Nat → Nat → FatProg Unit
  | 0, _ => .stuck
  | rounds + 1, cluster => do
    let next ← st.nextCluster cluster
    st.writeFatEntry cluster 0
    match next with
    | some n => freeChainFrom rounds n
    | none => pure ()

def freeChain (start : Nat) : FatProg Unit := st.freeChainFrom st.rounds start

/-- The loop of `ensure_cluster_for_index`: go on in the chain, or make it longer. -/
def extendChain : Nat → Nat → FatProg Nat
  | 0, cluster => pure cluster
  | steps + 1, cluster => do
    match ← st.nextCluster cluster with
    | some next => extendChain steps next
    | none =>
      let new ← st.allocateCluster
      st.writeFatEntry cluster new
      st.writeFatEntry new FatEoc
      extendChain steps new

/-- The first cluster of a chain and the one with the given index. -/
def ensureClusterForIndex (first idx : Nat) : FatProg (Nat × Nat) := do
  let first ← if first = 0 then st.allocateCluster else pure first
  let cluster ← st.extendChain idx first
  pure (first, cluster)

/-! ## Reading and writing a file -/

/-- The loop of `read` that goes to the cluster of the offset. -/
def skipClusters : Nat → Nat → FatProg (Option Nat)
  | 0, cluster => pure (some cluster)
  | steps + 1, cluster => do
    match ← st.nextCluster cluster with
    | some next => skipClusters steps next
    | none => pure none

/-- The loop of `read` over the clusters.  Every round but the first takes at least one
byte, so `remaining + 1` rounds are enough. -/
def readLoop : Nat → Nat → Nat → Nat → FatProg (List UInt8)
  | 0, _, _, _ => .stuck
  | rounds + 1, cluster, skip, remaining => do
    let buf ← st.readCluster cluster
    let take := min (st.clusterSize - skip) remaining
    let taken := Bytes.slice skip take buf
    if remaining - take = 0 then pure taken
    else
      match ← st.nextCluster cluster with
      | some next =>
        let rest ← readLoop rounds next 0 (remaining - take)
        pure (taken ++ rest)
      | none => pure taken

/-- One round of `write`: the part of the buffer that lies in the cluster with index `idx`. -/
def writePart (offset : Nat) (buf : List UInt8) (first idx : Nat) : FatProg Nat := do
  let (first, cluster) ← st.ensureClusterForIndex first idx
  let clusterOff := idx * st.clusterSize
  let start := if clusterOff < offset then offset - clusterOff else 0
  let stop := min st.clusterSize (offset + buf.length - clusterOff)
  let sliceStart := clusterOff + start - offset
  let clusterBuf ← st.readCluster cluster
  st.writeCluster cluster (Bytes.store start (Bytes.slice sliceStart (stop - start) buf) clusterBuf)
  pure first

/-- The loop of `write` over the indices. -/
def writeParts (offset : Nat) (buf : List UInt8) : List Nat → Nat → FatProg Nat
  | [], first => pure first
  | idx :: rest, first => do
    let first ← st.writePart offset buf first idx
    writeParts offset buf rest first

end FatFsState

namespace FatNode

variable (node : FatNode)

def read (offset len : Nat) : FatProg (List UInt8) :=
  if node.isDir then fail .Invalid
  else if node.firstCluster = 0 ∨ node.size = 0 then pure []
  else if node.size ≤ offset then pure []
  else do
    let remaining := min len (node.size - offset)
    match ← node.fs.skipClusters (offset / node.fs.clusterSize) node.firstCluster with
    | none => pure []
    | some cluster => node.fs.readLoop (remaining + 1) cluster (offset % node.fs.clusterSize) remaining

/-- What `write` does before it stores the handle: the handle it comes to.  The end of the
write is a `usize` and the size a `u32`; rounding the end up leaves a `usize` only for an end
in the last cluster below `2 ^ 64`, which no volume reaches. -/
def writeData (offset : Nat) (buf : List UInt8) : FatProg FatNode :=
  if node.isDir then fail .Invalid
  else if buf = [] then pure node
  else do
    let size := node.fs.clusterSize
    let startIdx := offset / size
    let endOffset := (offset + buf.length) % 2 ^ 64
    let endIdx := (endOffset + size - 1) / size
    let first ← node.fs.writeParts offset buf (List.range' startIdx (endIdx - startIdx))
      node.firstCluster
    pure { node with firstCluster := first, size := max node.size endOffset % 2 ^ 32 }

end FatNode

/-! ## Directory entries -/

def readDirEntry (offset : Nat) : FatProg (List UInt8) := readInto offset 32

def writeDirEntry (offset : Nat) (entry : List UInt8) : FatProg Unit := do
  let _ ← writeBytes offset entry
  pure ()

/-- The first cluster and the size in an entry of 32 bytes. -/
def setClusterAndSize (entry : List UInt8) (firstCluster size : Nat) : List UInt8 :=
  Bytes.store 28 (Bytes.ofNat 4 size)
    (Bytes.store 26 (Bytes.ofNat 2 (firstCluster % 2 ^ 16))
      (Bytes.store 20 (Bytes.ofNat 2 (firstCluster / 2 ^ 16)) entry))

def FatNode.updateEntryClusterAndSize (node : FatNode) : FatProg Unit :=
  match node.entryOffset with
  | none => pure ()
  | some offset => do
    let entry ← readDirEntry offset
    writeDirEntry offset (setClusterAndSize entry node.firstCluster node.size)

/-- `write`, up to the size of the node: the new handle, which the source stores before it
writes the directory entry. -/
def FatNode.write (node : FatNode) (offset : Nat) (buf : List UInt8) : FatProg FatNode := do
  let node' ← node.writeData offset buf
  if buf ≠ [] then node'.updateEntryClusterAndSize
  pure node'

end BoruixKernel
