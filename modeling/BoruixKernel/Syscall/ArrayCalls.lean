import BoruixKernel.Driver.Device
import BoruixKernel.Fs.Vfs
import BoruixKernel.Lib.Bytes
import BoruixKernel.Syscall.UserPtr

/-!
# System calls that fill a user array

Five system calls take a pointer and an element count, validate `count * size` bytes
for writing, and then store as many elements as they have.  The product is a 64-bit
multiplication that wraps, while the number of elements stored is bounded by the
count itself.  So the validated range can be shorter than what is written, down to a
length of zero, which passes without any check.

The five are one definition, `arrayCall`, at five element sizes.
`arrayCall_writesValidated_iff` says exactly when all its stores lie in the range it
validated.

A call returns the byte stores it makes through the user pointer next to its return
value.  The tables the calls read from (the directory, the network card, the driver
hub) are parameters.

The path of `sys_getdents`, as every path, is read up to a limit; a longer one is cut off
there (`readCstringFromUser_complete_iff`).
-/

namespace BoruixKernel

/-! ## Calls and their stores -/

/-- What a call did: its return value, the ranges that passed validation for writing,
and the byte stores through the user pointer. -/
structure UserCall where
  ret : Int
  validated : List (UInt64 × UInt64)
  writes : List (UInt64 × UInt8)
deriving DecidableEq

/-- A call that returns before it stores anything. -/
def UserCall.reject (code : Int) : UserCall := ⟨code, [], []⟩

/-- An element of a given size, as its bytes. -/
abbrev Raw (size : UInt64) := { bs : List UInt8 // bs.length = size.toNat }

def storeBytes (p : UInt64) (bs : List UInt8) : List (UInt64 × UInt8) :=
  bs.zipIdx.map fun (b, k) => (p + UInt64.ofNat k, b)

/-- Store elements one after another: element `i` at `buf.add(i)`. -/
def storeArray {size : UInt64} (buf : UInt64) (elems : List (Raw size)) :
    List (UInt64 × UInt8) :=
  elems.zipIdx.flatMap fun (e, i) => storeBytes (buf + UInt64.ofNat i * size) e.1

/-- The user side of the machine: the memory manager, the address space of the
current task, and the bytes user memory holds. -/
structure UserView (σ : Type) where
  mm : MmState σ
  current : Option MemorySet
  mem : UInt64 → UInt8

variable {σ : Type} (u : UserView σ)

/-- Validate an array for writing and fill it.  `body` is what the call does after the
validation: fail with a code, or return a value and the elements to store. -/
def arrayCall (err : Int) (minCount size buf count : UInt64) (body : Except Int (Int × List (Raw size))) :
    UserCall :=
  if buf = 0 ∨ count < minCount then .reject err
  else
    let bytes := count * size
    if !validateUserRange u.mm u.current buf bytes true then .reject err
    else
      match body with
      | .error code => ⟨code, [(buf, bytes)], []⟩
      | .ok (ret, elems) => ⟨ret, [(buf, bytes)], storeArray buf elems⟩

/-! ## `sys_getdents` -/

/-- The loop of `read_cstring_from_user`: the bytes before the first NUL, at most
`fuel` of them. -/
def readBytesFromUser {σ : Type} (u : UserView σ) : Nat → UInt64 → Option (List UInt8)
  | 0, _ => some []
  | fuel + 1, addr =>
    if !validateUserRange u.mm u.current addr 1 false then none
    else if u.mem addr = 0 then some []
    else (readBytesFromUser u fuel (addr + 1)).map (u.mem addr :: ·)

/-- A string from user memory. -/
def readCstringFromUser (ptr : UInt64) (maxLen : Nat) : Option String :=
  if ptr = 0 then none
  else
    match readBytesFromUser u maxLen ptr with
    | none => none
    | some bs => if bs.isEmpty then some "" else String.fromUTF8? ⟨bs.toArray⟩

/-- The return code of a filesystem error. -/
def mapVfsErr : VfsError → Int
  | .NotFound => -2
  | .NotDir => -3
  | .Exists => -4
  | .NoDev => -5
  | .Busy => -6
  | .NotEmpty => -7
  | .NotSupported => -8
  | .Invalid => -9
  | .Io => -10

/-- `size_of::<DirEntry>()`. -/
def dirEntrySize : UInt64 := 258

/-- A directory entry: the length of the name, and the name cut to 255 bytes. -/
def dirEntry (name : String) : Raw dirEntrySize :=
  let bytes := name.toUTF8.data.toList
  let n := min bytes.length 255
  ⟨Bytes.ofNat 2 n ++ Bytes.field 256 255 bytes, by
    rw [List.length_append, Bytes.length_ofNat, Bytes.length_field (by decide)]
    rfl⟩

/-- List a directory; `listDir` opens a path and lists it. -/
def sysGetdents (listDir : String → Except VfsError (List String)) (path buf max : UInt64) : UserCall :=
  arrayCall u (-12) 1 dirEntrySize buf max <|
    match readCstringFromUser u path 4096 with
    | none => .error (-11)
    | some path =>
      match listDir path with
      | .error e => .error (mapVfsErr e)
      | .ok list =>
        let total := min max.toNat list.length
        .ok (total, (list.take total).map dirEntry)

/-! ## The network card -/

def rawWord (size : UInt64) (v : Nat) : Raw size :=
  ⟨Bytes.ofNat size.toNat v, Bytes.length_ofNat _ _⟩

/-- Read the registers of the card; `regs` is `none` when there is no card. -/
def sysNetRegs (regs : Option (Vector UInt32 8)) (buf len : UInt64) : UserCall :=
  arrayCall u (-1) 8 4 buf len <|
    match regs with
    | none => .error (-1)
    | some regs => .ok (8, regs.toList.map fun r => rawWord 4 r.toNat)

/-- Read the packet counters of the card. -/
def sysNetCounters (counters : UInt64 × UInt64) (buf len : UInt64) : UserCall :=
  arrayCall u (-1) 2 8 buf len <|
    .ok (2, [rawWord 8 counters.1.toNat, rawWord 8 counters.2.toNat])

/-! ## The driver hub -/

/-- When a driver is started. -/
inductive DriverStage where
  | Early
  | Core
  | Devices
  | Late

def DriverStage.asU8 : DriverStage → UInt8
  | .Early => 0
  | .Core => 1
  | .Devices => 2
  | .Late => 3

/-- A registered driver; of its functions only whether they are there. -/
structure DriverEntry where
  name : String
  stage : DriverStage
  hasProbe : Bool
  hasAttach : Bool

def DeviceKind.asU8 : DeviceKind → UInt8
  | .Char => 0
  | .Block => 1
  | .Net => 2
  | .Display => 3
  | .Misc => 4

def BusType.asU8 : BusType → UInt8
  | .Platform => 0
  | .Pci => 1
  | .Unknown => 2

/-- A registered device with the driver bound to it. -/
structure DeviceEntry where
  name : String
  kind : DeviceKind
  bus : BusType
  location : UInt32
  vendorId : UInt16
  deviceId : UInt16
  classCode : UInt8
  subclass : UInt8
  progIf : UInt8
  driverName : Option String

/-- The slots of the two tables of the hub. -/
def MAX_DRIVERS : Nat := 32

/-- The length of a name in the raw records. -/
def NAME_LEN : Nat := 32

/-- `copy_name` into a zeroed field. -/
def copyName (name : String) : List UInt8 :=
  Bytes.field NAME_LEN NAME_LEN name.toUTF8.data.toList

@[simp] theorem length_copyName (name : String) : (copyName name).length = 32 :=
  Bytes.length_field (Nat.le_refl _) _

/-- `size_of::<DriverInfoRaw>()`. -/
def driverInfoSize : UInt64 := 36

def driverInfoRaw (d : DriverEntry) : Raw driverInfoSize :=
  ⟨copyName d.name ++ [d.stage.asU8, d.hasProbe.toUInt8, d.hasAttach.toUInt8, 0], by
    rw [List.length_append, length_copyName]
    rfl⟩

/-- `size_of::<DeviceInfoRaw>()`. -/
def deviceInfoSize : UInt64 := 80

/-- The raw record of a device slot, all zero for an empty slot. -/
def deviceInfoRaw : Option DeviceEntry → Raw deviceInfoSize
  | none => ⟨List.replicate 80 0, by rw [List.length_replicate]; rfl⟩
  | some d =>
    ⟨copyName d.name ++ copyName (d.driverName.getD "") ++ [d.kind.asU8, d.bus.asU8, 0, 0] ++
      Bytes.ofNat 4 d.location.toNat ++ Bytes.ofNat 2 d.vendorId.toNat ++
      Bytes.ofNat 2 d.deviceId.toNat ++ [d.classCode, d.subclass, d.progIf, 0], by
      simp only [List.length_append, length_copyName, Bytes.length_ofNat, List.length_cons,
        List.length_nil]
      rfl⟩

/-- The driver hub: two tables, and how many registrations were made.  The counts also
count the registrations that found a table full. -/
structure DriverHub where
  drivers : Vector DriverEntry MAX_DRIVERS
  driverCount : Nat
  devices : Vector (Option DeviceEntry) MAX_DRIVERS
  deviceCount : Nat

def sysDriverhubDrivers (hub : DriverHub) (buf len : UInt64) : UserCall :=
  arrayCall u (-1) 1 driverInfoSize buf len <|
    let total := min len.toNat hub.driverCount
    .ok (total, (hub.drivers.toList.take total).map driverInfoRaw)

def sysDriverhubDevices (hub : DriverHub) (buf len : UInt64) : UserCall :=
  arrayCall u (-1) 1 deviceInfoSize buf len <|
    let total := min len.toNat hub.deviceCount
    .ok (total, (hub.devices.toList.take total).map deviceInfoRaw)

/-! ## Where the stores go -/

/-- Every byte the call stores lies in a range of non-zero length that the call
validated for writing. -/
def UserCall.WritesValidated (c : UserCall) : Prop :=
  ∀ w ∈ c.writes, ∃ r ∈ c.validated, r.2 ≠ 0 ∧
    validateUserRange u.mm u.current r.1 r.2 true = true ∧
    r.1.toNat ≤ w.1.toNat ∧ w.1.toNat < r.1.toNat + r.2.toNat

theorem mem_storeBytes :
    (∃ w ∈ storeBytes p bs, w.1 = a) ↔ ∃ k < bs.length, a = p + UInt64.ofNat k := by
  simp only [storeBytes, List.mem_map, Prod.exists, List.mem_zipIdx_iff_getElem?]
  constructor
  · rintro ⟨_, _, ⟨b, k, hk, ⟨⟩⟩, rfl⟩
    exact ⟨k, (List.getElem?_eq_some_iff.mp hk).1, rfl⟩
  · rintro ⟨k, hk, rfl⟩
    exact ⟨_, _, ⟨bs[k], k, List.getElem?_eq_getElem hk, rfl⟩, rfl⟩

/-- The elements fill the addresses from the start of the array without a gap. -/
theorem mem_storeArray {elems : List (Raw size)} : (∃ w ∈ storeArray buf elems, w.1 = a) ↔
      ∃ k < elems.length * size.toNat, a = buf + UInt64.ofNat k := by
  have hsplit : ∀ i j, buf + UInt64.ofNat i * size + UInt64.ofNat j =
      buf + UInt64.ofNat (i * size.toNat + j) := by
    intro i j
    rw [UInt64.ofNat_add, UInt64.ofNat_mul, UInt64.ofNat_toNat, UInt64.add_assoc]
  have hmem : (∃ w ∈ storeArray buf elems, w.1 = a) ↔
      ∃ i < elems.length, ∃ j < size.toNat, a = buf + UInt64.ofNat (i * size.toNat + j) := by
    simp only [storeArray, List.mem_flatMap, Prod.exists, List.mem_zipIdx_iff_getElem?]
    constructor
    · rintro ⟨w1, w2, ⟨e, i, hi, hw⟩, rfl⟩
      obtain ⟨j, hj, hja⟩ := mem_storeBytes.mp ⟨(w1, w2), hw, rfl⟩
      refine ⟨i, (List.getElem?_eq_some_iff.mp hi).1, j, e.2 ▸ hj, ?_⟩
      rw [← hsplit]
      exact hja
    · rintro ⟨i, hi, j, hj, rfl⟩
      have hj' : j < (elems[i]).1.length := by rwa [(elems[i]).2]
      obtain ⟨w, hw, hwa⟩ := mem_storeBytes.mpr ⟨j, hj', (hsplit i j).symm⟩
      exact ⟨w.1, w.2, ⟨elems[i], i, List.getElem?_eq_getElem hi, hw⟩, hwa⟩
  rw [hmem]
  constructor
  · rintro ⟨i, hi, j, hj, rfl⟩
    refine ⟨_, ?_, rfl⟩
    calc i * size.toNat + j < i * size.toNat + size.toNat := by omega
      _ = (i + 1) * size.toNat := by ring
      _ ≤ elems.length * size.toNat := Nat.mul_le_mul_right _ hi
  · rintro ⟨k, hk, rfl⟩
    have hpos : 0 < size.toNat := Nat.pos_of_ne_zero fun h0 => by
      rw [h0, Nat.mul_zero] at hk
      exact absurd hk (Nat.not_lt_zero _)
    refine ⟨k / size.toNat, Nat.div_lt_of_lt_mul (by rwa [Nat.mul_comm]), k % size.toNat,
      Nat.mod_lt _ hpos, ?_⟩
    rw [Nat.mul_comm, Nat.div_add_mod]

/-- The stores lie in the validated range exactly when the call stops before them, or
the wrapped product is at least the number of bytes stored. -/
theorem arrayCall_writesValidated_iff (err : Int) (minCount size buf count : UInt64)
    (body : Except Int (Int × List (Raw size))) :
    (arrayCall u err minCount size buf count body).WritesValidated u ↔
      buf = 0 ∨ count < minCount ∨
      validateUserRange u.mm u.current buf (count * size) true = false ∨
      ∀ ret elems, body = .ok (ret, elems) →
        elems.length * size.toNat ≤ count.toNat * size.toNat % 2 ^ 64 := by
  unfold arrayCall
  by_cases hguard : buf = 0 ∨ count < minCount
  · rw [if_pos hguard]
    constructor
    · intro _
      rcases hguard with h | h
      · exact .inl h
      · exact .inr (.inl h)
    · rintro - w ⟨⟩
  · rw [if_neg hguard]
    rw [not_or] at hguard
    simp only [hguard.1, hguard.2, false_or]
    cases hv : validateUserRange u.mm u.current buf (count * size) true with
    | false => simp [UserCall.WritesValidated, UserCall.reject]
    | true =>
      simp only [Bool.not_true, Bool.false_eq_true, if_false, Bool.true_eq_false, false_or]
      rw [← UInt64.toNat_mul]
      -- A validated range of non-zero length ends in the user half, so it does not wrap.
      have hend : count * size ≠ 0 → buf.toNat + (count * size).toNat ≤ 0x0000800000000000 :=
        fun hne => (validateUserRange_eq_true (UInt64.pos_iff_ne_zero.mpr hne) hv).1
      have hoff : ∀ k ≤ (count * size).toNat, count * size ≠ 0 →
          (buf + UInt64.ofNat k).toNat = buf.toNat + k := by
        intro k hk hne
        have := hend hne
        rw [UInt64.toNat_add, UInt64.toNat_ofNat']
        omega
      cases body with
      | error code => simp [UserCall.WritesValidated]
      | ok res =>
        obtain ⟨ret, elems⟩ := res
        simp only [Except.ok.injEq, Prod.mk.injEq, and_imp, UserCall.WritesValidated,
          List.mem_singleton, exists_eq_left]
        constructor
        · rintro hall _ _ rfl rfl
          by_contra hlt
          obtain ⟨w, hw, hwa⟩ := mem_storeArray.mpr
            ⟨(count * size).toNat, Nat.not_le.mp hlt, rfl⟩
          obtain ⟨hne, -, -, hin⟩ := hall w hw
          rw [hwa, hoff _ (Nat.le_refl _) hne] at hin
          exact absurd hin (Nat.lt_irrefl _)
        · intro hle w hw
          obtain ⟨k, hk, hwa⟩ := mem_storeArray.mp ⟨w, hw, rfl⟩
          have hk' : k < (count * size).toNat := Nat.lt_of_lt_of_le hk (hle _ _ rfl rfl)
          have hne : count * size ≠ 0 := by
            intro h0
            rw [h0, UInt64.toNat_zero] at hk'
            exact absurd hk' (Nat.not_lt_zero _)
          rw [hwa, hoff k hk'.le hne]
          exact ⟨hne, hv, by omega, by omega⟩

/-- A call that fails after the validation stores nothing. -/
theorem arrayCall_error_writesValidated (err : Int) (minCount size buf count : UInt64) (code : Int) :
    (arrayCall u err minCount size buf count (.error code)).WritesValidated u := by
  rw [arrayCall_writesValidated_iff]
  exact .inr (.inr (.inr fun _ _ heq => by cases heq))

/-- The condition for a call that goes on to store `elems`. -/
theorem arrayCall_ok_writesValidated_iff (err : Int) (minCount size buf count : UInt64) (ret : Int)
    (elems : List (Raw size)) :
    (arrayCall u err minCount size buf count (.ok (ret, elems))).WritesValidated u ↔
      (buf = 0 ∨ count < minCount ∨
        validateUserRange u.mm u.current buf (count * size) true = false) ∨
      elems.length * size.toNat ≤ count.toNat * size.toNat % 2 ^ 64 := by
  rw [arrayCall_writesValidated_iff, or_assoc, or_assoc]
  refine or_congr_right (or_congr_right (or_congr_right ?_))
  exact ⟨fun h => h ret elems rfl, fun h _ _ heq => by cases heq; exact h⟩

/-! ## The five calls -/

/-- The exact condition on the arguments, for each of the five calls: the call stops
before it stores anything, or what it stores is no longer than the product as it
wraps. -/
theorem arrayCalls_writesValidated_iff {σ : Type} (u : UserView σ)
    (listDir : String → Except VfsError (List String)) (regs : Option (Vector UInt32 8))
    (counters : UInt64 × UInt64) (hub : DriverHub) (path buf count : UInt64) :
    let rejected (minCount size : UInt64) : Prop := buf = 0 ∨ count < minCount ∨
      validateUserRange u.mm u.current buf (count * size) true = false
    let wrapped (size : Nat) : Nat := count.toNat * size % 2 ^ 64
    ((sysGetdents u listDir path buf count).WritesValidated u ↔
      rejected 1 258 ∨ ∀ p, readCstringFromUser u path 4096 = some p →
        ∀ list, listDir p = .ok list → min count.toNat list.length * 258 ≤ wrapped 258) ∧
    ((sysNetRegs u regs buf count).WritesValidated u ↔
      rejected 8 4 ∨ regs = none ∨ 8 * 4 ≤ wrapped 4) ∧
    ((sysNetCounters u counters buf count).WritesValidated u ↔
      rejected 2 8 ∨ 2 * 8 ≤ wrapped 8) ∧
    ((sysDriverhubDrivers u hub buf count).WritesValidated u ↔
      rejected 1 36 ∨ min (min count.toNat hub.driverCount) 32 * 36 ≤ wrapped 36) ∧
    ((sysDriverhubDevices u hub buf count).WritesValidated u ↔
      rejected 1 80 ∨ min (min count.toNat hub.deviceCount) 32 * 80 ≤ wrapped 80) := by
  intro rejected wrapped
  refine ⟨?_, ?_, ?_, ?_, ?_⟩
  · unfold sysGetdents
    cases readCstringFromUser u path 4096 with
    | none => simp [arrayCall_error_writesValidated]
    | some p =>
      simp only [Option.some.injEq, forall_eq']
      cases listDir p with
      | error e => simp [arrayCall_error_writesValidated]
      | ok list =>
        simp only [Except.ok.injEq, forall_eq']
        rw [arrayCall_ok_writesValidated_iff, List.length_map, List.length_take]
        simp only [min_assoc, min_self]
        rfl
  · unfold sysNetRegs
    cases regs with
    | none => simp [arrayCall_error_writesValidated]
    | some regs =>
      rw [arrayCall_ok_writesValidated_iff, List.length_map, Vector.length_toList]
      simp only [reduceCtorEq, false_or]
      rfl
  · unfold sysNetCounters
    rw [arrayCall_ok_writesValidated_iff]
    rfl
  · unfold sysDriverhubDrivers
    rw [arrayCall_ok_writesValidated_iff, List.length_map, List.length_take, Vector.length_toList]
    rfl
  · unfold sysDriverhubDevices
    rw [arrayCall_ok_writesValidated_iff, List.length_map, List.length_take, Vector.length_toList]
    rfl

/-- A view with one user page, whose bytes are zero. -/
def onePageView : UserView Unit := ⟨onePageState, some onePageSet, fun _ => 0⟩

/-- A hub with one driver and one device slot registered. -/
def oneDriverHub : DriverHub where
  drivers := Vector.replicate MAX_DRIVERS ⟨"serial", .Early, false, false⟩
  driverCount := 1
  devices := Vector.replicate MAX_DRIVERS none
  deviceCount := 1

/-- Counts whose product wraps to zero: nothing is checked, and every call stores to a
kernel address. -/
theorem arrayCalls_store_unvalidated :
    ¬ (sysGetdents onePageView (fun _ => .ok ["a"]) 0x1000 0xffff800000001000
        0x8000000000000000).WritesValidated onePageView ∧
    ¬ (sysNetRegs onePageView (some (Vector.replicate 8 0)) 0xffff800000001000
        0x4000000000000000).WritesValidated onePageView ∧
    ¬ (sysNetCounters onePageView (0, 0) 0xffff800000001000
        0x2000000000000000).WritesValidated onePageView ∧
    ¬ (sysDriverhubDrivers onePageView oneDriverHub 0xffff800000001000
        0x4000000000000000).WritesValidated onePageView ∧
    ¬ (sysDriverhubDevices onePageView oneDriverHub 0xffff800000001000
        0x1000000000000000).WritesValidated onePageView := by
  have hpath : readCstringFromUser onePageView 0x1000 4096 = some "" := by decide +kernel
  refine ⟨?_, ?_, ?_, ?_, ?_⟩
  · rw [sysGetdents, hpath]
    simp only []
    rw [arrayCall_ok_writesValidated_iff, List.length_map]
    decide +kernel
  · rw [sysNetRegs, arrayCall_ok_writesValidated_iff, List.length_map]
    decide +kernel
  · rw [sysNetCounters, arrayCall_ok_writesValidated_iff]
    decide +kernel
  · rw [sysDriverhubDrivers, arrayCall_ok_writesValidated_iff, List.length_map]
    decide +kernel
  · rw [sysDriverhubDevices, arrayCall_ok_writesValidated_iff, List.length_map]
    decide +kernel

/-! ## Strings from user memory -/

section Strings

variable {u : UserView σ} {n : Nat} {ptr : UInt64} {bs : List UInt8}

abbrev UserView.Readable (u : UserView σ) (a : UInt64) : Prop := validateUserRange u.mm u.current a 1 false = true

/-- The bytes stand at the address, readable and none of them NUL, with a NUL behind them. -/
inductive UserView.Cstring (u : UserView σ) : UInt64 → List UInt8 → Prop
  | nil {a} (hread : u.Readable a) (hnul : u.mem a = 0) : Cstring u a []
  | cons {a bs} (hread : u.Readable a) (hne : u.mem a ≠ 0) (hrest : Cstring u (a + 1) bs) :
      Cstring u a (u.mem a :: bs)

def addrsFrom : Nat → UInt64 → List UInt64
  | 0, _ => []
  | n + 1, a => a :: addrsFrom n (a + 1)

/-- A string is one that ends with a NUL in memory, and there is none if the first `maxLen` bytes
have no NUL. -/
def ReadsCompletely (u : UserView σ) (ptr : UInt64) (maxLen : Nat) (r : Option String) : Prop :=
  (∀ str, r = some str → u.Cstring ptr str.toUTF8.data.toList) ∧
    ((∀ a ∈ addrsFrom maxLen ptr, u.mem a ≠ 0) → r = none)

/-- The loop ends at a NUL, or at the limit with all the bytes up to it. -/
theorem readBytesFromUser_spec (h : readBytesFromUser u n ptr = some bs) :
    u.Cstring ptr bs ∧ (∃ a ∈ addrsFrom n ptr, u.mem a = 0) ∨
      bs = (addrsFrom n ptr).map u.mem ∧ ∀ a ∈ addrsFrom n ptr, u.Readable a ∧ u.mem a ≠ 0 := by
  induction n generalizing ptr bs with
  | zero =>
    cases h
    exact .inr ⟨rfl, nofun⟩
  | succ n ih =>
    rw [readBytesFromUser] at h
    split_ifs at h with hread hnul
    · cases h
      exact .inl ⟨.nil (by simpa using hread) hnul, ptr, List.mem_cons_self, hnul⟩
    · have hread : u.Readable ptr := by simpa using hread
      obtain ⟨bs, hrest, rfl⟩ := Option.map_eq_some_iff.mp h
      rcases ih hrest with ⟨hstr, a, ha, hnul'⟩ | ⟨rfl, hall⟩
      · exact .inl ⟨.cons hread hnul hstr, a, List.mem_cons_of_mem _ ha, hnul'⟩
      · exact .inr ⟨rfl, List.forall_mem_cons.mpr ⟨⟨hread, hnul⟩, hall⟩⟩

theorem readBytesFromUser_plain (h : ∀ a ∈ addrsFrom n ptr, u.Readable a ∧ u.mem a ≠ 0) :
    readBytesFromUser u n ptr = some ((addrsFrom n ptr).map u.mem) := by
  induction n generalizing ptr with
  | zero => rfl
  | succ n ih =>
    obtain ⟨⟨hread, hne⟩, hrest⟩ := List.forall_mem_cons.mp h
    rw [readBytesFromUser, hread, ih hrest]
    simp [hne, addrsFrom]

theorem readCstringFromUser_of_bytes (hptr : ptr ≠ 0) (h : readBytesFromUser u n ptr = some bs) :
    readCstringFromUser u ptr n = String.fromUTF8? ⟨bs.toArray⟩ := by
  rw [readCstringFromUser, if_neg hptr, h]
  cases bs <;> rfl

/-- A string is read completely, or not at all, unless the first `maxLen` bytes are readable, have no
NUL and are UTF-8: these are then taken for the string. -/
theorem readCstringFromUser_complete_iff (u : UserView σ) (ptr : UInt64) (maxLen : Nat) :
    ReadsCompletely u ptr maxLen (readCstringFromUser u ptr maxLen) ↔
      ¬ (ptr ≠ 0 ∧ (∀ a ∈ addrsFrom maxLen ptr, u.Readable a ∧ u.mem a ≠ 0) ∧
        ByteArray.IsValidUTF8 ⟨((addrsFrom maxLen ptr).map u.mem).toArray⟩) := by
  constructor
  · rintro ⟨-, hnone⟩ ⟨hptr, hplain, hutf8⟩
    have hread := readCstringFromUser_of_bytes hptr (readBytesFromUser_plain hplain)
    rw [hnone fun a ha => (hplain a ha).2, String.fromUTF8?, dif_pos hutf8] at hread
    cases hread
  · intro hnot
    by_cases hptr : ptr = 0
    · rw [readCstringFromUser, if_pos hptr]
      exact ⟨nofun, fun _ => rfl⟩
    cases hbytes : readBytesFromUser u maxLen ptr with
    | none =>
      rw [readCstringFromUser, if_neg hptr, hbytes]
      exact ⟨nofun, fun _ => rfl⟩
    | some bs =>
      rw [readCstringFromUser_of_bytes hptr hbytes, String.fromUTF8?]
      split
      · next hutf8 =>
        rcases readBytesFromUser_spec hbytes with ⟨hstr, a, ha, hnul⟩ | ⟨rfl, hplain⟩
        · refine ⟨?_, fun hno => absurd hnul (hno a ha)⟩
          rintro _ ⟨⟩
          exact hstr
        · exact absurd ⟨hptr, hplain, hutf8⟩ hnot
      · exact ⟨nofun, fun _ => rfl⟩

end Strings

/-- Two letters A of a page that is full of them. -/
theorem readCstringFromUser_cut : let u : UserView Unit := ⟨onePageState, some onePageSet, fun _ => 65⟩
    readCstringFromUser u 0x1000 2 = some "AA" ∧
      ¬ ReadsCompletely u 0x1000 2 (readCstringFromUser u 0x1000 2) := by
  intro u
  have hread : readCstringFromUser u 0x1000 2 = some "AA" := by decide +kernel
  have hne : (65 : UInt8) ≠ 0 := by decide
  exact ⟨hread, fun h => by cases hread.symm.trans (h.2 fun _ _ => hne)⟩

end BoruixKernel
