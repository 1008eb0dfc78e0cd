import BoruixKernel.Lib.IdealDisk

/-!
# The ATA driver

`AtaPioDevice` moves sectors through the registers of the primary ATA channel, one sector per
command.  The other side is a drive that executes each command on the sector whose 28-bit
number is in its registers, that may be busy for a while and that reports no error.

The driver is a function on the state of the drive: every read of the status or of the data
port changes it.  `io_delay` writes to a port that the drive does not have.
-/

namespace BoruixKernel.AtaPio

def AtaSrBsy : UInt8 := 0x80
def AtaSrDrdy : UInt8 := 0x40
def AtaSrDf : UInt8 := 0x20
def AtaSrDrq : UInt8 := 0x08
def AtaSrErr : UInt8 := 0x01

def AtaCmdIdentify : UInt8 := 0xEC
def AtaCmdReadSectors : UInt8 := 0x20
def AtaCmdWriteSectors : UInt8 := 0x30

/-! ## The drive -/

/-- What is fixed about a drive: the answer to IDENTIFY, and for how many reads of the status
it is busy after each command. -/
structure Drive where
  ident : Vector UInt16 256
  latency : Nat → Nat
  latency_lt (n : Nat) : latency n < 10000

/-- The words that the data port still has to give or take. -/
inductive Transfer where
  | idle
  | ident (words : List UInt16)
  | read (pos left : Nat)
  | write (pos left : Nat)
  deriving DecidableEq

/-- The registers that are written, from 0x1F1 to 0x1F7. -/
inductive Reg where
  | features | sectorCount | lbaLow | lbaMid | lbaHigh | drive | command

/-- The two bytes of a word, the low one first. -/
def wordBytes (w : UInt16) : List UInt8 := [(w &&& 0xFF).toUInt8, (w >>> 8).toUInt8]

structure State where
  features : UInt8
  sectorCount : UInt8
  lbaLow : UInt8
  lbaMid : UInt8
  lbaHigh : UInt8
  drive : UInt8
  transfer : Transfer
  busy : Nat
  /-- How many times the drive has become busy. -/
  commands : Nat
  media : Disk
  /-- What the driver has printed. -/
  terminal : List String

namespace State

variable (D : Drive)

/-- The sector that the registers address. -/
def lba (s : State) : Nat :=
  (s.drive &&& 0x0F).toNat * 2 ^ 24 + s.lbaHigh.toNat * 2 ^ 16 + s.lbaMid.toNat * 2 ^ 8 + s.lbaLow.toNat

def count (s : State) : Nat := if s.sectorCount = 0 then 256 else s.sectorCount.toNat

def becomeBusy (s : State) (transfer : Transfer) : State :=
  { s with transfer, busy := D.latency s.commands, commands := s.commands + 1 }

def execute (cmd : UInt8) (s : State) : State :=
  if cmd = AtaCmdIdentify then s.becomeBusy D (.ident D.ident.toList)
  else if cmd = AtaCmdReadSectors then s.becomeBusy D (.read (512 * s.lba) (256 * s.count))
  else if cmd = AtaCmdWriteSectors then s.becomeBusy D (.write (512 * s.lba) (256 * s.count))
  else s

def out (r : Reg) (v : UInt8) (s : State) : State :=
  match r with
  | .features => { s with features := v }
  | .sectorCount => { s with sectorCount := v }
  | .lbaLow => { s with lbaLow := v }
  | .lbaMid => { s with lbaMid := v }
  | .lbaHigh => { s with lbaHigh := v }
  | .drive => { s with drive := v }
  | .command => s.execute D v

/-- The data port, read. -/
def inw (s : State) : UInt16 × State :=
  match s.transfer with
  | .ident (w :: ws) => (w, { s with transfer := if ws = [] then .idle else .ident ws })
  | .read pos (left + 1) =>
    ((s.media pos).toUInt16 ||| ((s.media (pos + 1)).toUInt16 <<< 8),
      { s with transfer := if left = 0 then .idle else .read (pos + 2) left })
  | _ => (0xFFFF, s)

/-- The data port, written.  After the last word the drive stores the sector. -/
def outw (w : UInt16) (s : State) : State :=
  match s.transfer with
  | .write pos (left + 1) =>
    let s := { s with media := s.media.put pos (wordBytes w) }
    if left = 0 then s.becomeBusy D .idle else { s with transfer := .write (pos + 2) left }
  | _ => s

/-! ## The driver -/

def print3 (msg : String) (s : State) : State := { s with terminal := s.terminal ++ [msg] }

def statusRead (s : State) : UInt8 × State :=
  if s.busy > 0 then (AtaSrBsy, { s with busy := s.busy - 1 })
  else (AtaSrDrdy ||| (if s.transfer = .idle then 0 else AtaSrDrq), s)

/-- `wait_not_busy`, with the reads of the status that are left. -/
def waitNotBusy : Nat → State → Bool × State
  | 0, s => (false, s)
  | n + 1, s =>
    let (st, s) := s.statusRead
    if st = 0xFF then (false, s)
    else if st &&& AtaSrBsy = 0 then (true, s)
    else waitNotBusy n s

def waitDrq : Nat → State → Bool × State
  | 0, s => (false, s)
  | n + 1, s =>
    let (st, s) := s.statusRead
    if st = 0xFF then (false, s)
    else if st &&& AtaSrBsy = 0 ∧ st &&& AtaSrDrq ≠ 0 then (true, s)
    else if st &&& AtaSrErr ≠ 0 ∨ st &&& AtaSrDf ≠ 0 then (false, s)
    else waitDrq n s

def selectDriveLba (lba : Nat) (s : State) : State :=
  s.out D .drive ((0xE0 : UInt8) ||| UInt8.ofNat ((lba >>> 24) &&& 0x0F))

def setLbaRegs (lba : Nat) (count : UInt8) (s : State) : State :=
  ((((s.out D .features 0).out D .sectorCount count).out D .lbaLow (UInt8.ofNat (lba &&& 0xFF))).out D
    .lbaMid (UInt8.ofNat ((lba >>> 8) &&& 0xFF))).out D .lbaHigh (UInt8.ofNat ((lba >>> 16) &&& 0xFF))

/-- Read words from the data port. -/
def inWords : Nat → State → List UInt16 × State
  | 0, s => ([], s)
  | n + 1, s =>
    let (w, s) := s.inw
    let (ws, s) := inWords n s
    (w :: ws, s)

def identify (s : State) : Option (UInt16 × UInt16 × UInt16 × UInt64) × State :=
  let (ready, s) := waitNotBusy 10000 s
  if !ready then (none, s)
  else
    let s := s.selectDriveLba D 0
    let s := (((s.out D .sectorCount 0).out D .lbaLow 0).out D .lbaMid 0).out D .lbaHigh 0
    let (status, s) := (s.out D .command AtaCmdIdentify).statusRead
    if status = 0 then (none, s)
    else
      let (drq, s) := waitDrq 10000 s
      if !drq then (none, s)
      else
        let (data, s) := inWords 256 s
        let word (i : Nat) : UInt64 := (data.getD i 0).toUInt64
        let lba28 := word 60 ||| (word 61 <<< 16)
        let lba48 := word 100 ||| (word 101 <<< 16) ||| (word 102 <<< 32) ||| (word 103 <<< 48)
        (some (data.getD 1 0, data.getD 3 0, data.getD 6 0, if lba48 ≠ 0 then lba48 else lba28), s)

/-- The loop of `ata_read_sector`, with the tries that are left. -/
def readTries (lba : Nat) : Nat → State → Option (List UInt8) × State
  | 0, s => (none, s)
  | tries + 1, s =>
    let (ready, s) := waitNotBusy 10000 s
    if !ready then readTries lba tries (s.print3 "ata_pio: read wait_not_busy timeout")
    else
      let (st, s) := (((s.selectDriveLba D lba).setLbaRegs D lba 1).out D .command AtaCmdReadSectors).statusRead
      if st = 0xFF then (none, s.print3 "ata_pio: read status 0xFF")
      else if st &&& AtaSrErr ≠ 0 ∨ st &&& AtaSrDf ≠ 0 then
        readTries lba tries (s.print3 "ata_pio: read status error")
      else
        let (drq, s) := waitDrq 10000 s
        if !drq then readTries lba tries (s.print3 "ata_pio: read wait_drq timeout")
        else
          let (words, s) := inWords 256 s
          (some (words.flatMap wordBytes), s)

def ataReadSector (lba : Nat) (s : State) : Option (List UInt8) × State := readTries D lba 3 s

/-- Write the words of some bytes to the data port. -/
def outWords : List UInt8 → State → State
  | lo :: hi :: data, s => outWords data (s.outw D (lo.toUInt16 ||| (hi.toUInt16 <<< 8)))
  | _, s => s

/-- The loop of `ata_write_sector`. -/
def writeTries (lba : Nat) (data : List UInt8) : Nat → State → Bool × State
  | 0, s => (false, s)
  | tries + 1, s =>
    let (ready, s) := waitNotBusy 10000 s
    if !ready then writeTries lba data tries (s.print3 "ata_pio: write wait_not_busy timeout")
    else
      let (st, s) := (((s.selectDriveLba D lba).setLbaRegs D lba 1).out D .command AtaCmdWriteSectors).statusRead
      if st = 0xFF then (false, s.print3 "ata_pio: write status 0xFF")
      else if st &&& AtaSrErr ≠ 0 ∨ st &&& AtaSrDf ≠ 0 then
        writeTries lba data tries (s.print3 "ata_pio: write status error")
      else
        let (drq, s) := waitDrq 10000 s
        if !drq then writeTries lba data tries (s.print3 "ata_pio: write wait_drq timeout")
        else
          let (stored, s) := waitNotBusy 10000 (s.outWords D data)
          if stored then (true, s) else writeTries lba data tries s

def ataWriteSector (lba : Nat) (data : List UInt8) (s : State) : Bool × State := writeTries D lba data 3 s

/-- The loop of `read_at`.  Every round takes a byte at least, so there are no more rounds than
bytes. -/
def readLoop (sectors : Nat) : Nat → Nat → Nat → Nat → State → List UInt8 × State
  | 0, _, _, _, s => ([], s)
  | rounds + 1, lba, sectorOff, remaining, s =>
    if remaining > 0 ∧ lba < sectors then
      match s.ataReadSector D lba with
      | (none, s) => ([], s)
      | (some buf, s) =>
        let take := min remaining (512 - sectorOff)
        let (rest, s) := readLoop sectors rounds (lba + 1) 0 (remaining - take) s
        (Bytes.slice sectorOff take buf ++ rest, s)
    else ([], s)

/-- `read_at`: the bytes that are put into the buffer. -/
def readAt (sectors offset : UInt64) (len : Nat) (s : State) : List UInt8 × State :=
  if offset.toNat / 512 ≥ sectors.toNat then ([], s)
  else readLoop D sectors.toNat len (offset.toNat / 512) (offset.toNat % 512) len s

/-- One round of `write_at`: a part of a sector is read first. -/
def writePart (lba sectorOff : Nat) (part : List UInt8) (s : State) : Bool × State :=
  if sectorOff ≠ 0 ∨ part.length < 512 then
    match s.ataReadSector D lba with
    | (none, s) => (false, s)
    | (some buf, s) => s.ataWriteSector D lba (Bytes.store sectorOff part buf)
  else s.ataWriteSector D lba part

def writeLoop (sectors : Nat) : Nat → Nat → Nat → List UInt8 → State → Nat × State
  | 0, _, _, _, s => (0, s)
  | rounds + 1, lba, sectorOff, data, s =>
    if data.length > 0 ∧ lba < sectors then
      let take := min data.length (512 - sectorOff)
      match s.writePart D lba sectorOff (data.take take) with
      | (false, s) => (0, s)
      | (true, s) =>
        let (done, s) := writeLoop sectors rounds (lba + 1) 0 (data.drop take) s
        (take + done, s)
    else (0, s)

/-- `write_at`: the number of bytes that are written. -/
def writeAt (sectors offset : UInt64) (data : List UInt8) (s : State) : Nat × State :=
  if offset.toNat / 512 ≥ sectors.toNat then (0, s)
  else writeLoop D sectors.toNat data.length (offset.toNat / 512) (offset.toNat % 512) data s

end State

/-! ## Sequences of calls -/

inductive Call where
  | readAt (offset : UInt64) (len : Nat)
  | writeAt (offset : UInt64) (data : List UInt8)

inductive Answer where
  | bytes (read : List UInt8)
  | count (written : Nat)
  deriving DecidableEq

/-- A call on the device with a number of sectors. -/
def call (D : Drive) (sectors : UInt64) (s : State) : Call → Answer × State
  | .readAt offset len =>
    let (bytes, s) := s.readAt D sectors offset len
    (.bytes bytes, s)
  | .writeAt offset data =>
    let (n, s) := s.writeAt D sectors offset data
    (.count n, s)

/-- A call on an array of bytes. -/
def arrayCall (size : Nat) (content : Disk) : Call → Answer × Disk
  | .readAt offset len => (.bytes (content.get offset.toNat (min len (size - offset.toNat))), content)
  | .writeAt offset data =>
    (.count (min data.length (size - offset.toNat)),
      content.put offset.toNat (data.take (min data.length (size - offset.toNat))))

/-- The answers to some calls, and the state after them. -/
def calls {σ : Type} (f : σ → Call → Answer × σ) : σ → List Call → List Answer × σ
  | s, [] => ([], s)
  | s, c :: cs =>
    let (a, s) := f s c
    let (as, s) := calls f s cs
    (a :: as, s)

end BoruixKernel.AtaPio
