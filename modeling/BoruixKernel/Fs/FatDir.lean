import BoruixKernel.Fs.FatVolume

/-!
# FAT32: directories

A directory is a chain of clusters with slots of 32 bytes.  The first byte of a slot says
whether it is in use: `0x00` ends the directory, `0xE5` is a slot that was deleted.  A slot
with the attribute `0x0F` holds 13 characters of a long name; the slots of a long name stand
in front of the entry they belong to, the last part first.

The reader puts the parts of a long name together in the order of falling numbers, which is
the order in which they stand on the disk and not the one in which they were cut.
-/

namespace BoruixKernel

open DeviceProg

/-! ## Names -/

/-- `name_eq`: equal up to the case of ASCII letters. -/
def nameEq (a b : Str) : Bool := a.map Char.toLower == b.map Char.toLower

/-- The characters of a field that ends at a blank. -/
def fieldText (bs : List UInt8) : Str := (bs.takeWhile (· ≠ 0x20)).map fun b => Char.ofNat b.toNat

def nameFromEntry (entry : List UInt8) : Option Str :=
  let base := fieldText (entry.take 8)
  let ext := fieldText (Bytes.slice 8 3 entry)
  if base = [] then none
  else if ext = [] then some base
  else some (base ++ '.' :: ext)

/-- Where the characters of a long name stand in a slot. -/
def lfnOffsets : List Nat := [1, 3, 5, 7, 9, 14, 16, 18, 20, 22, 24, 28, 30]

/-- The loop of `lfn_part_from_entry`.  A code unit that is no character is left out. -/
def lfnPartLoop (entry : List UInt8) : List Nat → Str
  | [] => []
  | off :: offs =>
    let val := Bytes.toNat (Bytes.slice off 2 entry)
    if val = 0x0000 ∨ val = 0xFFFF then []
    else if val < 0xD800 ∨ 0xDFFF < val then Char.ofNat val :: lfnPartLoop entry offs
    else lfnPartLoop entry offs

def lfnPartFromEntry (entry : List UInt8) : Str := lfnPartLoop entry lfnOffsets

/-- Letters, digits and some signs. -/
def isValidShortChar (b : UInt8) : Bool :=
  (0x41 ≤ b && b ≤ 0x5A) || (0x30 ≤ b && b ≤ 0x39) ||
    [0x20, 0x24, 0x25, 0x27, 0x2D, 0x5F, 0x40, 0x7E, 0x60, 0x21, 0x28, 0x29, 0x7B, 0x7D, 0x5E, 0x23,
      0x26].contains b

def toAsciiUppercase (b : UInt8) : UInt8 := if 0x61 ≤ b ∧ b ≤ 0x7A then b - 0x20 else b

def padBlank (width : Nat) (bs : List UInt8) : List UInt8 := bs ++ List.replicate (width - bs.length) 0x20

/-- One of the two fields of a short name. -/
def shortField (width : Nat) (bs : List UInt8) : Option (List UInt8) :=
  let bs := bs.map toAsciiUppercase
  if width < bs.length then none
  else if bs.all fun b => isValidShortChar b && b ≠ 0x20 then some (padBlank width bs)
  else none

def toShortName (name : Str) : Option (List UInt8) :=
  if name = ['.'] ∨ name = ['.', '.'] then none
  else
    match name.splitOn '.' with
    | [base] => if base = [] then none else (shortField 8 (utf8Bytes base)).map (padBlank 11)
    | [base, ext] =>
      if base = [] then none
      else
        (shortField 8 (utf8Bytes base)).bind fun base =>
          (shortField 3 (utf8Bytes ext)).map fun ext => base ++ ext
    | _ => none

def lfnChecksum (short : List UInt8) : UInt8 :=
  short.foldl (fun sum b => ((sum &&& 1) <<< 7) + (sum >>> 1) + b) 0

/-- The slot of a part of a long name.  A part that does not fill it ends with a zero. -/
def lfnEntry (first checksum : UInt8) (part : List Nat) : List UInt8 :=
  let slots := (part ++ if part.length < 13 then [0x0000] else [])
  let units := (slots ++ List.replicate (13 - slots.length) 0xFFFF).flatMap (Bytes.ofNat 2)
  first :: units.take 10 ++ [0x0F, 0, checksum] ++ Bytes.slice 10 12 units ++ [0, 0] ++ units.drop 22

/-- The slots of a long name, in the order in which they are written.  The numbers of the
parts are bytes. -/
def buildLfnEntries (name : Str) (short : List UInt8) : List (List UInt8) :=
  let utf16 := name.map fun c => if c.toNat ≤ 0xFFFF then c.toNat else 0x3F
  let chunks := max 1 ((utf16.length + 12) / 13)
  (List.range chunks).reverse.map fun idx =>
    let seq := UInt8.ofNat (idx + 1)
    lfnEntry (if seq = UInt8.ofNat chunks then seq ||| 0x40 else seq) (lfnChecksum short)
      ((utf16.drop (13 * idx)).take 13)

/-- The letters and digits of a name; a character is cut down to a byte first. -/
def normalizeShortBase (name : Str) : List UInt8 :=
  let out := (name.map fun c => UInt8.ofNat c.toNat).filter fun b =>
    (0x30 ≤ b && b ≤ 0x39) || (0x41 ≤ b && b ≤ 0x5A) || (0x61 ≤ b && b ≤ 0x7A)
  if out = [] then [0x46, 0x49, 0x4C, 0x45] else out.map toAsciiUppercase

/-- The short name with the number `n` at the end. -/
def numberedName (base ext : List UInt8) (n : Nat) : List UInt8 :=
  let suffix := 0x7E :: (Nat.toDigits 10 n).map fun c => UInt8.ofNat c.toNat
  padBlank 8 (base.take (8 - suffix.length) ++ suffix) ++ padBlank 3 (ext.take 3)

/-! ## Slots -/

/-- The slots of a cluster. -/
def slotIndices (buf : List UInt8) : List Nat := List.range (buf.length / 32)

/-- What the reader has of a long name. -/
structure LfnParts where
  parts : List (Nat × Str)
  active : Bool
deriving DecidableEq, Repr

namespace LfnParts

def clear : LfnParts := ⟨[], false⟩

/-- A slot of a long name.  The flag `0x40` marks the first one on the disk. -/
def push (lfn : LfnParts) (entry : List UInt8) : LfnParts :=
  let first := entry.getD 0 0
  let lfn := if first &&& 0x40 ≠ 0 then ⟨[], true⟩ else lfn
  if lfn.active then
    { lfn with parts := lfn.parts ++ [((first &&& 0x1F).toNat, lfnPartFromEntry entry)] }
  else lfn

/-- The long name: the parts in the order of falling numbers. -/
def name (lfn : LfnParts) : Str :=
  if lfn.active then (lfn.parts.insertionSort fun a b => b.1 ≤ a.1).flatMap (·.2) else []

end LfnParts

namespace FatFsState

variable (st : FatFsState)

/-- The name and the handle of an entry; nothing if it has no name, or is one of the two
entries with which a directory starts. -/
def entryNode (cluster slot : Nat) (lfn : LfnParts) (entry : List UInt8) : Option (Str × FatNode) :=
  let name := if lfn.name = [] then (nameFromEntry entry).getD [] else lfn.name
  if name = [] ∨ name = ['.'] ∨ name = ['.', '.'] then none
  else
    some (name, {
      fs := st
      firstCluster := Bytes.toNat (Bytes.slice 20 2 entry) * 2 ^ 16 + Bytes.toNat (Bytes.slice 26 2 entry)
      size := Bytes.toNat (Bytes.slice 28 4 entry)
      isDir := entry.getD 11 0 &&& 0x10 ≠ 0
      entryOffset := some ((st.clusterOffset cluster).getD 0 + 32 * slot) })

/-- The loop of `list_dir_entries` over the slots of a cluster: the entries, and the parts of
a long name that goes on in the next cluster, or nothing at the end of the directory. -/
def listSlots (cluster : Nat) (buf : List UInt8) :
    List Nat → LfnParts → List (Str × FatNode) × Option LfnParts
  | [], lfn => ([], some lfn)
  | slot :: slots, lfn =>
    let entry := Bytes.slice (32 * slot) 32 buf
    if entry.getD 0 0 = 0x00 then ([], none)
    else if entry.getD 0 0 = 0xE5 then listSlots cluster buf slots .clear
    else if entry.getD 11 0 = 0x0F then listSlots cluster buf slots (lfn.push entry)
    else
      let rest := listSlots cluster buf slots .clear
      ((st.entryNode cluster slot lfn entry).toList ++ rest.1, rest.2)

/-- The loop of `list_dir_entries` over the clusters. -/
def listDirFrom : Nat → Nat → LfnParts → FatProg (List (Str × FatNode))
  | 0, _, _ => .stuck
  | rounds + 1, cluster, lfn => do
    let buf ← st.readCluster cluster
    match st.listSlots cluster buf (slotIndices buf) lfn with
    | (out, none) => pure out
    | (out, some lfn) =>
      match ← st.nextCluster cluster with
      | some next =>
        let rest ← listDirFrom rounds next lfn
        pure (out ++ rest)
      | none => pure out

def listDirEntries (dirCluster : Nat) : FatProg (List (Str × FatNode)) :=
  st.listDirFrom st.rounds dirCluster .clear

/-- The loop of `list_dir_shortnames` over the slots of a cluster, and whether the directory
ends there. -/
def shortSlots (buf : List UInt8) : List Nat → List (List UInt8) × Bool
  | [] => ([], false)
  | slot :: slots =>
    let entry := Bytes.slice (32 * slot) 32 buf
    if entry.getD 0 0 = 0x00 then ([], true)
    else if entry.getD 0 0 = 0xE5 ∨ entry.getD 11 0 = 0x0F then shortSlots buf slots
    else
      let rest := shortSlots buf slots
      (entry.take 11 :: rest.1, rest.2)

def listShortFrom : Nat → Nat → FatProg (List (List UInt8))
  | 0, _ => .stuck
  | rounds + 1, cluster => do
    let buf ← st.readCluster cluster
    match shortSlots buf (slotIndices buf) with
    | (out, true) => pure out
    | (out, false) =>
      match ← st.nextCluster cluster with
      | some next =>
        let rest ← listShortFrom rounds next
        pure (out ++ rest)
      | none => pure out

def listDirShortnames (dirCluster : Nat) : FatProg (List (List UInt8)) :=
  st.listShortFrom st.rounds dirCluster

/-- A short name that no entry of the directory has, if one of the numbers up to 99 gives
one. -/
def toShortNameAuto (dirCluster : Nat) (name : Str) : FatProg (List UInt8) := do
  let parts := name.splitOn '.'
  let base := normalizeShortBase (parts.headD [])
  let ext := normalizeShortBase (parts.tail.headD [])
  let existing ← attempt (st.listDirShortnames dirCluster)
  let existing := existing.toOption.getD []
  match ((List.range 99).map fun i => numberedName base ext (i + 1)).find? (!existing.contains ·) with
  | some short => pure short
  | none => pure (padBlank 8 (base.take 8) ++ padBlank 3 (ext.take 3))

/-- The loop of `find_free_dir_entries` over the slots of a cluster: the first slot of a run
of free ones that is long enough. -/
def findRun (count : Nat) (buf : List UInt8) : List Nat → Nat → Nat → Option Nat
  | [], _, _ => none
  | slot :: slots, run, start =>
    if buf.getD (32 * slot) 0 = 0x00 ∨ buf.getD (32 * slot) 0 = 0xE5 then
      let start := if run = 0 then slot else start
      if count ≤ run + 1 then some start else findRun count buf slots (run + 1) start
    else findRun count buf slots 0 start

/-- The loop of `find_free_dir_entries` over the clusters, with the cluster it adds if there
is no run. -/
def findFreeFrom (count : Nat) : Nat → Nat → FatProg Nat
  | 0, _ => .stuck
  | rounds + 1, cluster => do
    let buf ← st.readCluster cluster
    match findRun count buf (slotIndices buf) 0 0 with
    | some start => pure ((st.clusterOffset cluster).getD 0 + 32 * start)
    | none =>
      match ← st.nextCluster cluster with
      | some next => findFreeFrom count rounds next
      | none =>
        let new ← st.allocateCluster
        st.writeFatEntry cluster new
        st.writeFatEntry new FatEoc
        st.zeroCluster new
        pure ((st.clusterOffset new).getD 0)

def findFreeDirEntries (dirCluster count : Nat) : FatProg Nat :=
  st.findFreeFrom count st.rounds dirCluster

def buildDirEntry (name : List UInt8) (attr : UInt8) (firstCluster size : Nat) : List UInt8 :=
  setClusterAndSize (name ++ attr :: List.replicate 20 0) firstCluster size

/-- The loop of `delete_lfn_chain`, with the slots that lie below. -/
def deleteLfnFrom (checksum : UInt8) : Nat → Nat → FatProg Unit
  | 0, _ => pure ()
  | below + 1, off => do
    let entry ← readDirEntry off
    if entry.getD 11 0 ≠ 0x0F ∨ entry.getD 13 0 ≠ checksum then pure ()
    else do
      writeDirEntry off (entry.set 0 0xE5)
      if off < 32 then pure () else deleteLfnFrom checksum below (off - 32)

def deleteLfnChain (shortOffset : Nat) : FatProg Unit :=
  if shortOffset < 32 then pure ()
  else do
    let entry ← readDirEntry shortOffset
    deleteLfnFrom (lfnChecksum (entry.take 11)) (shortOffset / 32) (shortOffset - 32)

def markDeleted (offset : Nat) : FatProg Unit := do
  let entry ← readDirEntry offset
  writeDirEntry offset (entry.set 0 0xE5)

def writeDotEntries (dirCluster parentCluster : Nat) : FatProg Unit := do
  let base ← ofOption .Invalid (st.clusterOffset dirCluster)
  writeDirEntry base (buildDirEntry (padBlank 11 [0x2E]) 0x10 dirCluster 0)
  writeDirEntry (base + 32) (buildDirEntry (padBlank 11 [0x2E, 0x2E]) 0x10 parentCluster 0)

/-! ## Creating, renaming and deleting -/

/-- Slots one after the other; returns the offset after the last one. -/
def writeSlots : List (List UInt8) → Nat → FatProg Nat
  | [], off => pure off
  | entry :: entries, off => do
    writeDirEntry off entry
    writeSlots entries (off + 32)

/-- The short name, and the slots of the long one if the name needs them. -/
def nameForms (dirCluster : Nat) (name : Str) : FatProg (List UInt8 × List (List UInt8)) :=
  match toShortName name with
  | some short => pure (short, [])
  | none => do
    let short ← st.toShortNameAuto dirCluster name
    pure (short, buildLfnEntries name short)

/-- The part that `create_entry` and `rename` have in common: the name in its two forms, and
the offset of a free run for them. -/
def placeFor (dirCluster : Nat) (name : Str) : FatProg (List UInt8 × List (List UInt8) × Nat) := do
  let (short, lfn) ← st.nameForms dirCluster name
  let existing ← st.listDirEntries dirCluster
  if existing.any fun e => nameEq e.1 name then fail .Exists
  else do
    let offset ← st.findFreeDirEntries dirCluster (1 + lfn.length)
    pure (short, lfn, offset)

def attributeOf (isDir : Bool) : UInt8 := if isDir then 0x10 else 0x20

/-- The first cluster of a new entry: only a directory has one. -/
def firstClusterFor (dirCluster : Nat) (isDir : Bool) : FatProg Nat :=
  if isDir then do
    let cluster ← st.allocateCluster
    st.writeDotEntries cluster dirCluster
    pure cluster
  else pure 0

/-- The slots of a name one after the other; returns the offset of the last one, the entry. -/
def writeNamed (lfn : List (List UInt8)) (entry : List UInt8) (offset : Nat) : FatProg Nat := do
  let shortOff ← writeSlots lfn offset
  writeDirEntry shortOff entry
  pure shortOff

/-- What `create_entry` does on the disk. -/
def createEntry (dirCluster : Nat) (name : Str) (isDir : Bool) : FatProg FatNode := do
  let (short, lfn, offset) ← st.placeFor dirCluster name
  let firstCluster ← st.firstClusterFor dirCluster isDir
  let shortOff ← writeNamed lfn (buildDirEntry short (attributeOf isDir) firstCluster 0) offset
  pure ⟨st, firstCluster, 0, isDir, some shortOff⟩

/-- What `rename` does on the disk before it stores the offset of the new entry. -/
def writeRenamed (dirCluster : Nat) (node : FatNode) (newName : Str) : FatProg Nat := do
  let (short, lfn, offset) ← st.placeFor dirCluster newName
  writeNamed lfn (buildDirEntry short (attributeOf node.isDir) node.firstCluster node.size) offset

/-- What `rename` does on the disk after that. -/
def removeOld (offset : Nat) : FatProg Unit := do
  deleteLfnChain offset
  markDeleted offset

/-- The entries in a node that is to be deleted. -/
def entriesIn (node : FatNode) : FatProg (List (Str × FatNode)) :=
  if node.isDir then st.listDirEntries node.firstCluster else pure []

/-- Take a node off the disk: first its entry, then its clusters. -/
def eraseNode (node : FatNode) : FatProg Unit := do
  node.entryOffset.elim (pure ()) markDeleted
  if node.firstCluster ≠ 0 then st.freeChain node.firstCluster else pure ()

/-- What `delete` does on the disk. -/
def deleteEntry (node : FatNode) : FatProg Unit := do
  let entries ← st.entriesIn node
  if entries ≠ [] then fail .NotEmpty else st.eraseNode node

end FatFsState

/-! ## The boot sector -/

/-- A number in a sector. -/
def sectorField (sector : List UInt8) (off len : Nat) : Nat := Bytes.toNat (Bytes.slice off len sector)

def parseBpb (sector : List UInt8) : Option FatBpb :=
  let field := sectorField sector
  let bpb : FatBpb := {
    bytesPerSector := field 11 2
    sectorsPerCluster := field 13 1
    reservedSectors := field 14 2
    numFats := field 16 1
    rootEntryCount := field 17 2
    totalSectors := if field 19 2 ≠ 0 then field 19 2 else field 32 4
    fatSizeSectors := if field 22 2 ≠ 0 then field 22 2 else field 36 4
    rootCluster := field 44 4 }
  if sector.length < 90 then none
  else if bpb.bytesPerSector = 0 ∨ bpb.sectorsPerCluster = 0 ∨ bpb.fatSizeSectors = 0 then none
  else some bpb

/-- The layout that `build_state` computes.  The number of sectors for data is a `u32`, which
wraps around. -/
def FatBpb.layout (bpb : FatBpb) (dev : NodeId) : FatFsState :=
  let rootDirSectors := (bpb.rootEntryCount * 32 + (bpb.bytesPerSector - 1)) / bpb.bytesPerSector
  let systemSectors := bpb.reservedSectors + bpb.numFats * bpb.fatSizeSectors + rootDirSectors
  let dataSectors := (bpb.totalSectors + (2 ^ 32 - systemSectors % 2 ^ 32)) % 2 ^ 32
  { dev
    bpb
    fatOffset := bpb.reservedSectors * bpb.bytesPerSector
    fatSize := bpb.fatSizeSectors * bpb.bytesPerSector
    dataOffset := systemSectors * bpb.bytesPerSector
    clusterCount := dataSectors / bpb.sectorsPerCluster }

end BoruixKernel
