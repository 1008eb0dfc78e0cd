import BoruixKernel.Driver.AtaPio

/-!
# The ATA disk as an array of bytes

A sector is read and written where its number modulo 2²⁸ says, since the registers hold no more
than 28 bits of it.  So the device is the array of its bytes if and only if IDENTIFY reports no
more than 2²⁸ sectors; with more of them the first sector is also the one after the last that
can be addressed.
-/

namespace BoruixKernel.AtaPio

open List Disk

namespace State

variable (D : Drive) {s : State} {data : List UInt8} {sectors : UInt64}

/-! ## Waiting -/

theorem statusRead_busy (h : 0 < s.busy) :
    s.statusRead = (AtaSrBsy, { s with busy := s.busy - 1 }) := if_pos h

theorem statusRead_ready (h : s.busy = 0) :
    s.statusRead = (AtaSrDrdy ||| (if s.transfer = .idle then 0 else AtaSrDrq), s) :=
  if_neg (by omega)

/-- The wait ends when the drive is no longer busy. -/
theorem waitNotBusy_eq (h : s.busy < n) : waitNotBusy n s = (true, { s with busy := 0 }) := by
  induction n generalizing s with
  | zero => omega
  | succ n ih =>
    rw [waitNotBusy]
    by_cases hbusy : s.busy = 0
    · rw [statusRead_ready hbusy]
      have hs : { s with busy := 0 } = s := by rw [← hbusy]
      rw [hs]
      by_cases hidle : s.transfer = .idle
      · simp only [if_pos hidle]
        rfl
      · simp only [if_neg hidle]
        rfl
    · rw [statusRead_busy (by omega)]
      show waitNotBusy n { s with busy := s.busy - 1 } = _
      exact ih (s := { s with busy := s.busy - 1 }) (by show s.busy - 1 < n; omega)

/-- While there is something to transfer. -/
theorem waitDrq_eq (h : s.busy < n) (ht : s.transfer ≠ .idle) :
    waitDrq n s = (true, { s with busy := 0 }) := by
  induction n generalizing s with
  | zero => omega
  | succ n ih =>
    rw [waitDrq]
    by_cases hbusy : s.busy = 0
    · rw [statusRead_ready hbusy]
      have hs : { s with busy := 0 } = s := by rw [← hbusy]
      rw [hs]
      simp only [if_neg ht]
      rfl
    · rw [statusRead_busy (by omega)]
      show waitDrq n { s with busy := s.busy - 1 } = _
      exact ih (s := { s with busy := s.busy - 1 }) (by show s.busy - 1 < n; omega) ht

/-- After the first look at the status. -/
theorem waitDrq_after (h : s.busy < 10000) (ht : s.transfer ≠ .idle) :
    waitDrq 10000 { s with busy := s.busy - 1 } = (true, { s with busy := 0 }) :=
  waitDrq_eq (by show s.busy - 1 < _; omega) ht

/-- The status after a command is never one of those that the driver gives up on. -/
theorem statusRead_spec (s : State) :
    ∃ st, s.statusRead = (st, { s with busy := s.busy - 1 }) ∧ st ≠ 0 ∧ st ≠ 0xFF ∧
      ¬ (st &&& AtaSrErr ≠ 0 ∨ st &&& AtaSrDf ≠ 0) := by
  by_cases hbusy : s.busy = 0
  · have hs : { s with busy := s.busy - 1 } = s := by rw [hbusy, Nat.zero_sub, ← hbusy]
    rw [statusRead_ready hbusy, hs]
    refine ⟨_, rfl, ?_⟩
    split <;> decide
  · exact ⟨_, statusRead_busy (by omega), by decide⟩

/-! ## The registers -/

/-- The registers hold the low 28 bits of a sector number. -/
theorem lba_setLbaRegs (lba : Nat) (count : UInt8) (s : State) :
    ((s.selectDriveLba D lba).setLbaRegs D lba count).lba = lba % 2 ^ 28 := by
  have hbyte (x : Nat) : (UInt8.ofNat (x &&& 0xFF)).toNat = x % 256 := by
    rw [UInt8.toNat_ofNat', show (0xFF : Nat) = 2 ^ 8 - 1 from rfl, Nat.and_two_pow_sub_one_eq_mod]
    omega
  have hdrive (x : Nat) : (((0xE0 : UInt8) ||| UInt8.ofNat (x &&& 0x0F)) &&& 0x0F).toNat = x % 16 := by
    rw [show (0x0F : Nat) = 2 ^ 4 - 1 from rfl, Nat.and_two_pow_sub_one_eq_mod]
    have hlt : x % 2 ^ 4 < 16 := Nat.mod_lt _ (by decide)
    generalize x % 2 ^ 4 = y at hlt
    revert y
    decide
  show (((0xE0 : UInt8) ||| UInt8.ofNat ((lba >>> 24) &&& 0x0F)) &&& 0x0F).toNat * 2 ^ 24 +
    (UInt8.ofNat ((lba >>> 16) &&& 0xFF)).toNat * 2 ^ 16 + (UInt8.ofNat ((lba >>> 8) &&& 0xFF)).toNat * 2 ^ 8 +
    (UInt8.ofNat (lba &&& 0xFF)).toNat = _
  rw [hdrive, hbyte, hbyte, hbyte]
  simp only [Nat.shiftRight_eq_div_pow]
  omega

/-! ## The data port -/

theorem wordBytes_or (lo hi : UInt8) : wordBytes (lo.toUInt16 ||| (hi.toUInt16 <<< 8)) = [lo, hi] := by
  have hlo := lo.toNat_lt
  have hhi := hi.toNat_lt
  have hword : (lo.toUInt16 ||| (hi.toUInt16 <<< 8)).toNat = hi.toNat * 256 + lo.toNat := by
    rw [UInt16.toNat_or, UInt16.toNat_shiftLeft, UInt8.toNat_toUInt16, UInt8.toNat_toUInt16, Nat.or_comm]
    have hshift : hi.toNat <<< 8 % 2 ^ 16 = hi.toNat <<< 8 := by
      rw [Nat.shiftLeft_eq]
      omega
    rw [show (8 : UInt16).toNat % 16 = 8 from rfl, hshift, ← Nat.shiftLeft_add_eq_or_of_lt hlo, Nat.shiftLeft_eq]
  have h1 : ((lo.toUInt16 ||| (hi.toUInt16 <<< 8)) &&& 0xFF).toUInt8 = lo := by
    apply UInt8.toNat_inj.mp
    rw [UInt16.toNat_toUInt8, UInt16.toNat_and, hword, show (0xFF : UInt16).toNat = 2 ^ 8 - 1 from rfl,
      Nat.and_two_pow_sub_one_eq_mod]
    omega
  have h2 : ((lo.toUInt16 ||| (hi.toUInt16 <<< 8)) >>> 8).toUInt8 = hi := by
    apply UInt8.toNat_inj.mp
    rw [UInt16.toNat_toUInt8, UInt16.toNat_shiftRight, hword, show (8 : UInt16).toNat % 16 = 8 from rfl,
      Nat.shiftRight_eq_div_pow]
    omega
  rw [wordBytes, h1, h2]

theorem inWords_read (h : s.transfer = if n = 0 then .idle else .read pos n) :
    (inWords n s).1.flatMap wordBytes = s.media.get pos (2 * n) ∧
      (inWords n s).2 = { s with transfer := .idle } := by
  induction n generalizing s pos with
  | zero =>
    rw [if_pos rfl] at h
    exact ⟨rfl, by rw [inWords, ← h]⟩
  | succ n ih =>
    rw [if_neg (Nat.succ_ne_zero n)] at h
    have hinw : s.inw = ((s.media pos).toUInt16 ||| ((s.media (pos + 1)).toUInt16 <<< 8),
        { s with transfer := if n = 0 then .idle else .read (pos + 2) n }) := by
      rw [inw, h]
    rw [inWords, hinw]
    obtain ⟨hbytes, hstate⟩ := ih (s := { s with transfer := if n = 0 then .idle else .read (pos + 2) n }) rfl
    refine ⟨?_, hstate⟩
    show wordBytes _ ++ (inWords n _).1.flatMap wordBytes = _
    rw [hbytes, wordBytes_or, show 2 * (n + 1) = 2 + 2 * n by omega, get_add]
    rfl

theorem outWords_write (hdata : data.length = 2 * (n + 1)) (h : s.transfer = .write pos (n + 1)) :
    s.outWords D data = { s with media := s.media.put pos data }.becomeBusy D .idle := by
  induction n generalizing s pos data with
  | zero =>
    obtain ⟨lo, hi, rfl⟩ := length_eq_two.mp hdata
    rw [outWords, outw, h, wordBytes_or]
    rfl
  | succ n ih =>
    match data, hdata with
    | lo :: hi :: rest, hdata =>
      have hrest : rest.length = 2 * (n + 1) := by
        simp only [length_cons] at hdata
        omega
      have houtw : s.outw D (lo.toUInt16 ||| (hi.toUInt16 <<< 8)) =
          { s with media := s.media.put pos [lo, hi], transfer := .write (pos + 2) (n + 1) } := by
        rw [outw, h, wordBytes_or]
        rfl
      rw [outWords, houtw, ih hrest rfl]
      show becomeBusy D { s with media := (s.media.put pos [lo, hi]).put (pos + 2) rest, .. } .idle = _
      rw [show pos + 2 = pos + [lo, hi].length from rfl, put_append]
      rfl

/-! ## Sectors -/

/-- Between the commands. -/
structure Ready (s : State) : Prop where
  idle : s.transfer = .idle
  busy : s.busy = 0

theorem Ready.wait (h : Ready s) : waitNotBusy 10000 s = (true, s) := by
  rw [waitNotBusy_eq (by rw [h.busy]; decide), ← h.busy]

/-- After a command and the first look at the status the drive works on the sector. -/
theorem execute_spec (cmd : UInt8) (lba : Nat) (s : State) (transfer : Nat → Nat → Transfer)
    (hcmd : ∀ t, execute D cmd t = t.becomeBusy D (transfer (512 * t.lba) (256 * t.count))) :
    ∃ t, ((s.selectDriveLba D lba).setLbaRegs D lba 1).out D .command cmd = t ∧
      t.transfer = transfer (512 * (lba % 2 ^ 28)) 256 ∧ t.media = s.media ∧ t.busy < 10000 := by
  refine ⟨_, rfl, ?_, ?_, ?_⟩
  · rw [out, hcmd, lba_setLbaRegs]
    rfl
  · rw [out, hcmd]
    rfl
  · rw [out, hcmd]
    exact D.latency_lt _

theorem ataReadSector_eq (h : Ready s) (lba : Nat) :
    ∃ s', s.ataReadSector D lba = (some (s.media.get (512 * (lba % 2 ^ 28)) 512), s') ∧ Ready s' ∧
      s'.media = s.media := by
  obtain ⟨t, ht, htransfer, hmedia, hbusy⟩ :=
    execute_spec D AtaCmdReadSectors lba s .read (fun _ => rfl)
  obtain ⟨st, hst, -, hff, herr⟩ := statusRead_spec t
  have hdrq := waitDrq_after hbusy (by rw [htransfer]; nofun)
  obtain ⟨hwords, hstate⟩ : (inWords 256 { t with busy := 0 }).1.flatMap wordBytes =
        t.media.get (512 * (lba % 2 ^ 28)) 512 ∧
      (inWords 256 { t with busy := 0 }).2 = { t with busy := 0, transfer := .idle } :=
    inWords_read htransfer
  refine ⟨{ t with busy := 0, transfer := .idle }, ?_, ⟨rfl, rfl⟩, hmedia⟩
  rw [← hmedia, ataReadSector, readTries, h.wait]
  simp [ht, hst, hdrq, hwords, hstate, if_neg hff, if_neg herr]

theorem ataWriteSector_eq (h : Ready s) (lba : Nat) (hdata : data.length = 512) :
    ∃ s', s.ataWriteSector D lba data = (true, s') ∧ Ready s' ∧
      s'.media = s.media.put (512 * (lba % 2 ^ 28)) data := by
  obtain ⟨t, ht, htransfer, hmedia, hbusy⟩ :=
    execute_spec D AtaCmdWriteSectors lba s .write (fun _ => rfl)
  obtain ⟨st, hst, -, hff, herr⟩ := statusRead_spec t
  have hdrq := waitDrq_after hbusy (by rw [htransfer]; nofun)
  have hwords : outWords D data { t with busy := 0 } =
      becomeBusy D { t with busy := 0, media := t.media.put (512 * (lba % 2 ^ 28)) data } .idle :=
    outWords_write D (n := 255) hdata htransfer
  refine ⟨{ becomeBusy D { t with busy := 0, media := t.media.put (512 * (lba % 2 ^ 28)) data } .idle with
    busy := 0 }, ?_, ⟨rfl, rfl⟩, ?_⟩
  · rw [ataWriteSector, writeTries, h.wait]
    simp only [ht, hst, hdrq, hwords, if_neg hff, if_neg herr, Bool.not_true, Bool.false_eq_true, if_false]
    rw [waitNotBusy_eq (D.latency_lt _)]
    rfl
  · show t.media.put _ _ = _
    rw [hmedia]

theorem writePart_eq (h : Ready s) (lba : Nat) (hpart : sectorOff + part.length ≤ 512) :
    ∃ s', s.writePart D lba sectorOff part = (true, s') ∧ Ready s' ∧
      s'.media = s.media.put (512 * (lba % 2 ^ 28) + sectorOff) part := by
  rw [writePart]
  split
  · obtain ⟨s1, hread, hready, hmedia⟩ := ataReadSector_eq D h lba
    have hlen : (Bytes.store sectorOff part (s.media.get (512 * (lba % 2 ^ 28)) 512)).length = 512 := by
      rw [Bytes.length_store (by rw [length_get]; exact hpart), length_get]
    obtain ⟨s2, hwrite, hready2, hmedia2⟩ := ataWriteSector_eq D hready lba hlen
    rw [hread]
    refine ⟨s2, hwrite, hready2, ?_⟩
    rw [hmedia2, hmedia, put_store_get _ hpart]
  · have hoff : sectorOff = 0 := by omega
    rw [hoff, Nat.add_zero]
    exact ataWriteSector_eq D h lba (by omega)

/-! ## Reading and writing -/

/-- Reading from a place on, as far as the sectors go. -/
theorem readLoop_eq {sectors rounds sectorOff remaining : Nat} (lba : Nat)
    (hsectors : sectors ≤ 2 ^ 28) (h : Ready s) (hoff : sectorOff < 512) (hrounds : remaining ≤ rounds) :
    ∃ s', readLoop D sectors rounds lba sectorOff remaining s =
        (s.media.get (512 * lba + sectorOff) (min remaining (512 * sectors - (512 * lba + sectorOff))), s') ∧
      Ready s' ∧ s'.media = s.media := by
  induction rounds generalizing lba sectorOff remaining s with
  | zero =>
    rw [readLoop, Nat.le_zero.mp hrounds, Nat.zero_min]
    exact ⟨s, rfl, h, rfl⟩
  | succ rounds ih =>
    rw [readLoop]
    split
    · next hin =>
      obtain ⟨s1, hread, hready, hmedia⟩ := ataReadSector_eq D h lba
      rw [Nat.mod_eq_of_lt (by omega)] at hread
      obtain ⟨take, htake⟩ : ∃ take, take = min remaining (512 - sectorOff) := ⟨_, rfl⟩
      obtain ⟨s2, hrest, hready2, hmedia2⟩ : ∃ s2, readLoop D sectors rounds (lba + 1) 0 (remaining - take) s1 =
          (s1.media.get (512 * (lba + 1) + 0)
            (min (remaining - take) (512 * sectors - (512 * (lba + 1) + 0))), s2) ∧
          Ready s2 ∧ s2.media = s1.media := ih (lba + 1) hready (by decide) (by omega)
      refine ⟨s2, ?_, hready2, hmedia2.trans hmedia⟩
      rw [hread]
      simp only [← htake, hrest]
      rw [slice_get _ (by omega), hmedia]
      -- The bytes from this sector, and those from the next ones on.
      by_cases hlast : remaining ≤ 512 - sectorOff
      · rw [show min (remaining - take) (512 * sectors - (512 * (lba + 1) + 0)) = 0 by omega, get_zero,
          append_nil, show min remaining (512 * sectors - (512 * lba + sectorOff)) = take by omega]
      · rw [show 512 * (lba + 1) + 0 = 512 * lba + sectorOff + take by omega, ← get_add]
        congr 2
        omega
    · next hout =>
      have hnone : min remaining (512 * sectors - (512 * lba + sectorOff)) = 0 := by omega
      rw [hnone]
      exact ⟨s, rfl, h, rfl⟩

theorem writeLoop_eq {sectors rounds sectorOff : Nat} (lba : Nat) (hsectors : sectors ≤ 2 ^ 28)
    (h : Ready s) (hoff : sectorOff < 512) (hrounds : data.length ≤ rounds) :
    ∃ s', writeLoop D sectors rounds lba sectorOff data s =
        (min data.length (512 * sectors - (512 * lba + sectorOff)), s') ∧
      Ready s' ∧ s'.media = s.media.put (512 * lba + sectorOff)
        (data.take (min data.length (512 * sectors - (512 * lba + sectorOff)))) := by
  induction rounds generalizing lba sectorOff data s with
  | zero =>
    rw [writeLoop, Nat.le_zero.mp hrounds, Nat.zero_min, take_zero, put_nil]
    exact ⟨s, rfl, h, rfl⟩
  | succ rounds ih =>
    rw [writeLoop]
    split
    · next hin =>
      obtain ⟨take, htake⟩ : ∃ take, take = min data.length (512 - sectorOff) := ⟨_, rfl⟩
      have hlen : (data.take take).length = take := by
        rw [length_take]
        omega
      obtain ⟨s1, hwrite, hready, hmedia⟩ : ∃ s1, s.writePart D lba sectorOff (data.take take) = (true, s1) ∧
          Ready s1 ∧ s1.media = s.media.put (512 * (lba % 2 ^ 28) + sectorOff) (data.take take) :=
        writePart_eq D h lba (by omega)
      rw [Nat.mod_eq_of_lt (by omega)] at hmedia
      obtain ⟨n, hn⟩ : ∃ n, n = min (data.drop take).length (512 * sectors - (512 * (lba + 1) + 0)) := ⟨_, rfl⟩
      obtain ⟨s2, hrest, hready2, hmedia2⟩ : ∃ s2, writeLoop D sectors rounds (lba + 1) 0 (data.drop take) s1 =
          (n, s2) ∧ Ready s2 ∧ s2.media = s1.media.put (512 * (lba + 1) + 0) ((data.drop take).take n) := by
        rw [hn]
        exact ih (lba + 1) hready (by decide) (by rw [length_drop]; omega)
      rw [length_drop] at hn
      have hsum : min data.length (512 * sectors - (512 * lba + sectorOff)) = take + n := by omega
      rw [hsum]
      simp only [← htake, hwrite, hrest]
      refine ⟨s2, rfl, hready2, ?_⟩
      rw [hmedia2, hmedia, take_add]
      -- The next sectors follow on this one, unless the data end in it.
      by_cases hlast : data.length ≤ 512 - sectorOff
      · rw [show n = 0 by omega, take_zero, put_nil, append_nil]
      · rw [show 512 * (lba + 1) + 0 = 512 * lba + sectorOff + (data.take take).length by omega, put_append]
    · next hout =>
      have hnone : min data.length (512 * sectors - (512 * lba + sectorOff)) = 0 := by omega
      rw [hnone, take_zero, put_nil]
      exact ⟨s, rfl, h, rfl⟩

theorem readAt_eq (hsectors : sectors.toNat ≤ 2 ^ 28) (h : Ready s) (offset : UInt64) (len : Nat) :
    ∃ s', s.readAt D sectors offset len =
        (s.media.get offset.toNat (min len (512 * sectors.toNat - offset.toNat)), s') ∧
      Ready s' ∧ s'.media = s.media := by
  rw [readAt]
  split
  · have hnone : min len (512 * sectors.toNat - offset.toNat) = 0 := by omega
    rw [hnone]
    exact ⟨s, rfl, h, rfl⟩
  · have hloop := readLoop_eq D (offset.toNat / 512) hsectors h (Nat.mod_lt offset.toNat (by decide))
      (Nat.le_refl len)
    rw [Nat.div_add_mod] at hloop
    exact hloop

theorem writeAt_eq (hsectors : sectors.toNat ≤ 2 ^ 28) (h : Ready s) (offset : UInt64)
    (data : List UInt8) :
    ∃ s', s.writeAt D sectors offset data = (min data.length (512 * sectors.toNat - offset.toNat), s') ∧
      Ready s' ∧ s'.media =
        s.media.put offset.toNat (data.take (min data.length (512 * sectors.toNat - offset.toNat))) := by
  rw [writeAt]
  split
  · have hnone : min data.length (512 * sectors.toNat - offset.toNat) = 0 := by omega
    rw [hnone, take_zero, put_nil]
    exact ⟨s, rfl, h, rfl⟩
  · have hloop := writeLoop_eq D (offset.toNat / 512) hsectors h (Nat.mod_lt offset.toNat (by decide))
      (Nat.le_refl data.length)
    rw [Nat.div_add_mod] at hloop
    exact hloop

end State

/-! ## IDENTIFY -/

/-- The number of sectors in the answer to IDENTIFY. -/
def Drive.sectors (D : Drive) : UInt64 :=
  let word (i : Nat) : UInt64 := (D.ident.toList.getD i 0).toUInt64
  let lba48 := word 100 ||| (word 101 <<< 16) ||| (word 102 <<< 32) ||| (word 103 <<< 48)
  if lba48 ≠ 0 then lba48 else word 60 ||| (word 61 <<< 16)

variable (D : Drive)

namespace State

theorem inWords_ident (h : s.transfer = if words = [] then .idle else .ident words) :
    inWords words.length s = (words, { s with transfer := .idle }) := by
  induction words generalizing s with
  | nil => rw [length_nil, inWords, ← show s.transfer = .idle from h]
  | cons w words ih =>
    have hinw : s.inw = (w, { s with transfer := if words = [] then .idle else .ident words }) := by
      rw [inw, h]
      rfl
    rw [length_cons, inWords, hinw]
    simp [ih (s := { s with transfer := if words = [] then .idle else .ident words }) rfl]

theorem identify_eq (h : Ready s) :
    ∃ cyl head sect s', s.identify D = (some (cyl, head, sect, D.sectors), s') ∧ Ready s' ∧
      s'.media = s.media := by
  obtain ⟨t, ht⟩ : ∃ t, (((((s.selectDriveLba D 0).out D .sectorCount 0).out D .lbaLow 0).out D .lbaMid 0).out D
      .lbaHigh 0).out D .command AtaCmdIdentify = t := ⟨_, rfl⟩
  have htransfer : t.transfer = .ident D.ident.toList := by rw [← ht]; rfl
  have hbusy : t.busy < 10000 := by rw [← ht]; exact D.latency_lt _
  have hmedia : t.media = s.media := by rw [← ht]; rfl
  obtain ⟨st, hst, hzero, -, -⟩ := statusRead_spec t
  have hdrq := waitDrq_after hbusy (by rw [htransfer]; nofun)
  have hwords : inWords 256 { t with busy := 0 } = (D.ident.toList, { t with busy := 0, transfer := .idle }) := by
    have hnil : D.ident.toList ≠ [] := fun hnil => by simpa using congrArg List.length hnil
    have hall : inWords D.ident.toList.length { t with busy := 0 } =
        (D.ident.toList, { t with busy := 0, transfer := .idle }) :=
      inWords_ident (by rw [if_neg hnil]; exact htransfer)
    rwa [Vector.length_toList] at hall
  refine ⟨D.ident.toList.getD 1 0, D.ident.toList.getD 3 0, D.ident.toList.getD 6 0, { t with busy := 0, transfer := .idle }, ?_, ⟨rfl, rfl⟩, hmedia⟩
  rw [identify, h.wait]
  simp only [ht, hst, hdrq, hwords, if_neg hzero, Bool.not_true, Bool.false_eq_true, if_false]
  rfl

end State

/-! ## The array -/

/-- A call on the device is the call on the array. -/
theorem call_eq (hsectors : sectors.toNat ≤ 2 ^ 28) (h : s.Ready) (c : Call) :
    ∃ s', call D sectors s c = ((arrayCall (512 * sectors.toNat) s.media c).1, s') ∧ s'.Ready ∧
      s'.media = (arrayCall (512 * sectors.toNat) s.media c).2 := by
  cases c with
  | readAt offset len =>
    obtain ⟨s', heq, hready, hmedia⟩ := State.readAt_eq D hsectors h offset len
    exact ⟨s', by rw [call, heq]; rfl, hready, hmedia⟩
  | writeAt offset data =>
    obtain ⟨s', heq, hready, hmedia⟩ := State.writeAt_eq D hsectors h offset data
    exact ⟨s', by rw [call, heq]; rfl, hready, hmedia⟩

theorem calls_eq (hsectors : sectors.toNat ≤ 2 ^ 28) (h : s.Ready) (cs : List Call) :
    (calls (call D sectors) s cs).1 = (calls (arrayCall (512 * sectors.toNat)) s.media cs).1 ∧
      (calls (call D sectors) s cs).2.media = (calls (arrayCall (512 * sectors.toNat)) s.media cs).2 := by
  induction cs generalizing s with
  | nil => exact ⟨rfl, rfl⟩
  | cons c cs ih =>
    obtain ⟨s', heq, hready, hmedia⟩ := call_eq D hsectors h c
    obtain ⟨hanswers, hmedia'⟩ := ih hready
    rw [calls, calls, heq]
    rw [hmedia] at hanswers hmedia'
    exact ⟨congrArg _ hanswers, hmedia'⟩

/-- The device that `init_primary` finds, from any state of the drive between commands on,
answers every sequence of calls as the array of its bytes does, and the medium has the bytes of
the array after it. -/
def IsByteArray : Prop :=
  ∀ s : State, s.Ready → ∀ cs : List Call,
    ∃ cyl head sect sectors s', s.identify D = (some (cyl, head, sect, sectors), s') ∧
      (calls (call D sectors) s' cs).1 = (calls (arrayCall (512 * sectors.toNat)) s.media cs).1 ∧
      ∀ i < 512 * sectors.toNat, (calls (call D sectors) s' cs).2.media i =
        (calls (arrayCall (512 * sectors.toNat)) s.media cs).2 i

/-- A byte is written one sector after the last that can be addressed, and the first byte is
read. -/
def wrapCalls : List Call := [.writeAt (2 ^ 37) [1], .readAt 0 1]

/-- The byte that was written at 2³⁷ is at 0. -/
theorem calls_wrapCalls (hsectors : 2 ^ 28 < sectors.toNat) (h : s.Ready) :
    (calls (call D sectors) s wrapCalls).1 = [.count 1, .bytes [1]] := by
  obtain ⟨s1, hpart, hready1, hmedia1⟩ : ∃ s1, s.writePart D (2 ^ 28) 0 [1] = (true, s1) ∧ s1.Ready ∧
      s1.media = s.media.put 0 [1] := State.writePart_eq D h (2 ^ 28) (by decide)
  have hwrite : s.writeAt D sectors (2 ^ 37) [1] = (1, s1) := by
    show (if 2 ^ 28 ≥ sectors.toNat then _ else _) = _
    rw [if_neg (by omega)]
    show State.writeLoop D sectors.toNat 1 (2 ^ 28) 0 [1] s = _
    rw [State.writeLoop, if_pos ⟨by decide, hsectors⟩]
    extract_lets take
    rw [show s.writePart D (2 ^ 28) 0 ([1].take take) = _ from hpart]
    rfl
  obtain ⟨s2, hsector, -, -⟩ := State.ataReadSector_eq D hready1 0
  have hread : s1.readAt D sectors 0 1 = ([1], s2) := by
    show (if 0 ≥ sectors.toNat then _ else _) = _
    rw [if_neg (by omega)]
    show State.readLoop D sectors.toNat 1 0 0 1 s1 = _
    rw [State.readLoop, if_pos ⟨by decide, by omega⟩, hsector, hmedia1]
    show (Bytes.slice 0 1 ((s.media.put 0 [1]).get 0 512) ++ [], s2) = _
    rw [slice_get _ (by decide)]
    rfl
  show [Answer.count (s.writeAt D sectors (2 ^ 37) [1]).1,
    .bytes ((s.writeAt D sectors (2 ^ 37) [1]).2.readAt D sectors 0 1).1] = _
  rw [hwrite]
  show [Answer.count 1, .bytes (s1.readAt D sectors 0 1).1] = _
  rw [hread]

theorem arrayCalls_wrapCalls (hsectors : 2 ^ 28 < sectors) :
    (calls (arrayCall (512 * sectors)) (fun _ => 0) wrapCalls).1 = [.count 1, .bytes [0]] := by
  have hplace : (2 ^ 37 : UInt64).toNat = 2 ^ 37 := by decide
  have hwrite : min [(1 : UInt8)].length (512 * sectors - 2 ^ 37) = 1 := by
    rw [length_singleton]
    omega
  have hread : min 1 (512 * sectors - (0 : UInt64).toNat) = 1 := by
    rw [UInt64.toNat_zero]
    omega
  simp only [wrapCalls, calls, arrayCall, hplace, hwrite, hread]
  rfl

/-- The device is the array of its bytes if and only if the drive reports no more sectors than
28 bits can tell apart. -/
theorem isByteArray_iff : IsByteArray D ↔ D.sectors.toNat ≤ 2 ^ 28 := by
  constructor
  · intro harray
    refine Nat.le_of_not_lt fun hlarge => ?_
    have hs : State.Ready ⟨0, 0, 0, 0, 0, 0, .idle, 0, 0, fun _ => 0, []⟩ := ⟨rfl, rfl⟩
    obtain ⟨_, _, _, s1, hident1, hready1, -⟩ := State.identify_eq D hs
    obtain ⟨_, _, _, sectors, s', hident, hanswers, -⟩ := harray _ hs wrapCalls
    cases hident1.symm.trans hident
    -- The array still has its zero at the first place.
    rw [calls_wrapCalls D hlarge hready1] at hanswers
    rw [arrayCalls_wrapCalls hlarge] at hanswers
    exact absurd hanswers (by decide)
  · intro hsectors s hs cs
    obtain ⟨cyl, head, sect, s', hident, hready, hmedia⟩ := State.identify_eq D hs
    obtain ⟨hanswers, hmedia'⟩ := calls_eq D hsectors hready cs
    rw [hmedia] at hanswers hmedia'
    exact ⟨cyl, head, sect, D.sectors, s', hident, hanswers, fun i _ => congrFun hmedia' i⟩

/-- A drive of 2²⁸ + 1 sectors, about 128 GiB. -/
def bigDrive : Drive where
  ident := (Vector.replicate 256 0).set 100 1 |>.set 101 0x1000
  latency _ := 0
  latency_lt _ := by decide

/-- On it the byte written at 2³⁷ is read at 0, where the array has what was there before. -/
theorem bigDrive_wraps :
    bigDrive.sectors = 2 ^ 28 + 1 ∧
      (calls (call bigDrive bigDrive.sectors) ⟨0, 0, 0, 0, 0, 0, .idle, 0, 0, fun _ => 0, []⟩ wrapCalls).1 =
        [.count 1, .bytes [1]] ∧
      (calls (arrayCall (512 * bigDrive.sectors.toNat)) (fun _ => 0) wrapCalls).1 = [.count 1, .bytes [0]] := by
  have hsectors : bigDrive.sectors = 2 ^ 28 + 1 := by decide +kernel
  have hlarge : 2 ^ 28 < bigDrive.sectors.toNat := by rw [hsectors]; decide
  exact ⟨hsectors, calls_wrapCalls bigDrive hlarge ⟨rfl, rfl⟩, arrayCalls_wrapCalls hlarge⟩

end BoruixKernel.AtaPio
