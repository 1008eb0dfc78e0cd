import BoruixKernel.Fs.FatChain
import BoruixKernel.Fs.FatDir

/-!
# Names on a FAT volume

A name that fits in eight and three characters is stored in capitals in the entry itself, any
other in slots of thirteen characters in front of it.

The dot between the two fields is not stored.  A short name is read back as it was, up to case,
exactly if it does not end with a dot (`toShortName_readBack_iff`).
-/

namespace BoruixKernel

open List

/-! ## Short names -/

/-- A character all of whose bytes can stand in a short name is one byte. -/
theorem utf8EncodeChar_of_valid
    (h : ∀ b ∈ String.utf8EncodeChar c, isValidShortChar (toAsciiUppercase b) = true) :
    String.utf8EncodeChar c = [UInt8.ofNat c.toNat] ∧ c.toNat < 128 := by
  by_cases hc : c.toNat ≤ 127
  · exact ⟨if_pos hc, by omega⟩
  · -- A longer encoding ends with a byte above `0x7F`.
    have hlast : UInt8.ofNat (c.toNat % 64 + 128) ∈ String.utf8EncodeChar c := by
      rw [show String.utf8EncodeChar c = _ from if_neg hc]
      split
      · simp
      · split <;> simp
    have hhigh : ∀ n < 64, isValidShortChar (toAsciiUppercase (UInt8.ofNat (n + 128))) = false := by
      decide
    have hvalid := h _ hlast
    rw [hhigh _ (Nat.mod_lt _ (by decide))] at hvalid
    cases hvalid

theorem fieldText_padBlank (h : ∀ b ∈ f, b ≠ 0x20) :
    fieldText (padBlank width f) = f.map fun b => Char.ofNat b.toNat := by
  have hwhile : (padBlank width f).takeWhile (· ≠ 0x20) = f := by
    rw [padBlank, takeWhile_append_of_pos (by simpa using h)]
    cases width - f.length <;> simp [replicate_succ]
  rw [fieldText, hwhile]

/-- A field holds the characters it was made of, in capitals. -/
theorem shortField_spec (h : shortField width (utf8Bytes t) = some f) :
    f.length = width ∧ (fieldText f).map Char.toLower = t.map Char.toLower ∧ '.' ∉ t := by
  unfold shortField at h
  dsimp only at h
  split at h
  · cases h
  next hlen =>
  split at h
  rotate_left
  · cases h
  next hall =>
  cases h
  have hbyte : ∀ b ∈ utf8Bytes t, isValidShortChar (toAsciiUppercase b) = true ∧
      toAsciiUppercase b ≠ 0x20 := by
    simpa using hall
  refine ⟨?_, ?_⟩
  · rw [padBlank, length_append, length_replicate]
    omega
  rw [fieldText_padBlank (by simpa using fun b hb => (hbyte b hb).2)]
  clear hall hlen
  have hascii : ∀ n < 128, isValidShortChar (toAsciiUppercase (UInt8.ofNat n)) = true →
      (Char.ofNat (toAsciiUppercase (UInt8.ofNat n)).toNat).toLower = (Char.ofNat n).toLower ∧
        Char.ofNat n ≠ '.' := by
    decide +kernel
  induction t with
  | nil => simp [utf8Bytes]
  | cons c t ih =>
    have hbytes : utf8Bytes (c :: t) = String.utf8EncodeChar c ++ utf8Bytes t := flatMap_cons
    rw [hbytes] at hbyte ⊢
    obtain ⟨hhead, htail⟩ := forall_mem_append.mp hbyte
    obtain ⟨hone, hlt⟩ := utf8EncodeChar_of_valid fun b hb => (hhead b hb).1
    rw [hone] at hhead ⊢
    have hchar := hascii _ hlt (hhead _ (mem_singleton.mpr rfl)).1
    rw [Char.ofNat_toNat] at hchar
    obtain ⟨htext, hdot⟩ := ih htail
    refine ⟨?_, ?_⟩
    · simpa [hchar.1] using htext
    · simpa [eq_comm] using ⟨hchar.2, hdot⟩

/-- What is read of the two fields. -/
theorem nameFromEntry_append (hbase : base.length = 8) (hext : ext.length = 3)
    (hne : fieldText base ≠ []) : nameFromEntry (base ++ ext) =
      some (if fieldText ext = [] then fieldText base else fieldText base ++ '.' :: fieldText ext) := by
  have hslice : Bytes.slice 8 3 (base ++ ext) = ext := by
    rw [Bytes.slice, drop_left' hbase, take_of_length_le hext.le]
  rw [nameFromEntry, hslice, take_left' hbase, if_neg hne]
  split <;> rfl

/-- A short name is read back, up to case, exactly if the name does not end with a dot. -/
theorem toShortName_readBack_iff {name : Str} {short : List UInt8}
    (h : toShortName name = some short) :
    (∃ text, nameFromEntry short = some text ∧ nameEq text name = true) ↔
      name.getLast? ≠ some '.' := by
  have hjoin : ['.'].intercalate (name.splitOn '.') = name := intercalate_splitOn '.'
  have hnil : ∀ {f : List UInt8} {t : Str}, (fieldText f).map Char.toLower = t.map Char.toLower →
      (fieldText f = [] ↔ t = []) := by
    intro f t htext
    rw [← map_eq_nil_iff (f := Char.toLower), htext, map_eq_nil_iff]
  unfold toShortName at h
  split at h
  · cases h
  split at h
  · next base hsplit =>
    rw [hsplit] at hjoin
    obtain rfl : base = name := by simpa [List.intercalate] using hjoin
    split at h
    · cases h
    next hne =>
    obtain ⟨f, hf, rfl⟩ := Option.map_eq_some_iff.mp h
    obtain ⟨hlen, htext, hdot⟩ := shortField_spec hf
    have hpad : padBlank 11 f = f ++ [0x20, 0x20, 0x20] := by
      rw [padBlank, hlen]
      rfl
    rw [hpad, nameFromEntry_append hlen rfl (fun hf => hne ((hnil htext).mp hf))]
    refine iff_of_true ⟨_, rfl, ?_⟩ fun hlast => hdot (mem_of_getLast? hlast)
    rw [if_pos (by decide), nameEq, htext, beq_self_eq_true]
  · next base ext hsplit =>
    rw [hsplit] at hjoin
    obtain rfl : base ++ '.' :: ext = name := by simpa [List.intercalate] using hjoin
    split at h
    · cases h
    next hne =>
    obtain ⟨f, hf, hrest⟩ := Option.bind_eq_some_iff.mp h
    obtain ⟨g, hg, rfl⟩ := Option.map_eq_some_iff.mp hrest
    obtain ⟨hlen, htext, -⟩ := shortField_spec hf
    obtain ⟨hlen', htext', hdot⟩ := shortField_spec hg
    rw [nameFromEntry_append hlen hlen' (fun hf => hne ((hnil htext).mp hf))]
    cases hext : ext with
    | nil =>
      -- The dot is lost.
      subst hext
      rw [if_pos ((hnil htext').mpr rfl)]
      refine iff_of_false ?_ (by simp)
      rintro ⟨_, ⟨⟩, heq⟩
      have hlength := congrArg List.length (eq_of_beq heq)
      rw [htext] at hlength
      simp at hlength
    | cons c t =>
      rw [← hext, if_neg fun hg => by simp [(hnil htext').mp hg] at hext]
      refine iff_of_true ⟨_, rfl, ?_⟩ fun hlast => hdot ?_
      · simp [nameEq, htext, htext']
      · rw [hext] at hlast ⊢
        exact mem_of_getLast? (by simpa using hlast)
  · cases h

theorem readBack_extension : ∃ text, nameFromEntry (padBlank 8 [0x41] ++ padBlank 3 [0x42]) =
    some text ∧ nameEq text ['a', '.', 'b'] = true :=
  (toShortName_readBack_iff (by decide +kernel)).mpr (by decide)

/-- The dot at the end of a name is lost. -/
theorem readBack_finalDot : toShortName ['a', '.'] = some (padBlank 11 [0x41]) ∧
    nameFromEntry (padBlank 11 [0x41]) = some ['A'] ∧ nameEq ['A'] ['a', '.'] = false := by
  decide +kernel

/-! ## Long names -/

section Long

/-- What `lfn_part_from_entry` makes of the thirteen units of a slot. -/
def readUnits : List Nat → Str
  | [] => []
  | v :: vs =>
    let val := Bytes.toNat (Bytes.ofNat 2 v)
    if val = 0x0000 ∨ val = 0xFFFF then []
    else if val < 0xD800 ∨ 0xDFFF < val then Char.ofNat val :: readUnits vs
    else readUnits vs

/-- The units of a slot are read in the order in which they were written. -/
theorem lfnPartFromEntry_units : ∀ units : List Nat, units.length = 13 →
    let bytes := units.flatMap (Bytes.ofNat 2)
    let entry := first :: bytes.take 10 ++ [0x0F, 0, checksum] ++ Bytes.slice 10 12 bytes ++
      [0, 0] ++ bytes.drop 22
    lfnPartFromEntry entry = readUnits units ∧ entry.getD 11 0 = 0x0F
  | [_, _, _, _, _, _, _, _, _, _, _, _, _], _ => ⟨rfl, rfl⟩

/-- Units that are characters of a name. -/
def IsUnit (v : Nat) : Prop := 0 < v ∧ v < 0xFFFF ∧ (v < 0xD800 ∨ 0xDFFF < v)

theorem readUnits_append (hpart : ∀ v ∈ part, IsUnit v) (rest : List Nat) :
    readUnits (part ++ rest) = part.map Char.ofNat ++ readUnits rest := by
  induction part with
  | nil => rfl
  | cons v part ih =>
    obtain ⟨⟨hpos, hlt, hchar⟩, htail⟩ := forall_mem_cons.mp hpart
    have hval : Bytes.toNat (Bytes.ofNat 2 v) = v := by
      rw [Bytes.toNat_ofNat]
      omega
    rw [cons_append, readUnits, hval, if_neg (by omega), if_pos hchar, ih htail]
    rfl

theorem lfnPartFromEntry_lfnEntry (hpart : ∀ v ∈ part, IsUnit v) (hlen : part.length ≤ 13) :
    lfnPartFromEntry (lfnEntry first checksum part) = part.map Char.ofNat ∧
      (lfnEntry first checksum part).getD 11 0 = 0x0F := by
  unfold lfnEntry
  obtain ⟨hread, hattr⟩ := @lfnPartFromEntry_units first checksum
    ((part ++ if part.length < 13 then [0x0000] else []) ++ List.replicate
      (13 - (part ++ if part.length < 13 then [0x0000] else []).length) 0xFFFF)
    (by split <;> simp <;> omega)
  refine ⟨hread.trans ?_, hattr⟩
  rw [append_assoc, readUnits_append hpart]
  by_cases h : part.length < 13
  · rw [if_pos h]
    exact append_nil _
  · rw [if_neg h, append_nil, show 13 - part.length = 0 by omega]
    exact append_nil _

/-- The pieces of thirteen characters in which a name is cut. -/
def lfnPieces (name : Str) : List Str :=
  (List.range ((name.length + 12) / 13)).map fun i => (name.drop (13 * i)).take 13

/-- The names that have a form of their own in long slots. -/
structure IsLongName (name : Str) : Prop where
  nonempty : name ≠ []
  length : name.length ≤ 255
  units : ∀ c ∈ name, IsUnit c.toNat

variable {name : Str} {short : List UInt8}

/-- The slot of one piece of a name in `n` pieces. -/
def pieceEntry (name : Str) (short : List UInt8) (n idx : Nat) : List UInt8 :=
  let seq := UInt8.ofNat (idx + 1)
  lfnEntry (if seq = UInt8.ofNat n then seq ||| 0x40 else seq) (lfnChecksum short)
    (((name.drop (13 * idx)).take 13).map Char.toNat)

theorem buildLfnEntries_eq (h : IsLongName name) : buildLfnEntries name short =
    (List.range ((name.length + 12) / 13)).reverse.map
      (pieceEntry name short ((name.length + 12) / 13)) := by
  have hunits : name.map (fun c => if c.toNat ≤ 0xFFFF then c.toNat else 0x3F) = name.map Char.toNat :=
    map_congr_left fun c hc => if_pos (by have := (h.units c hc).2.1; omega)
  have hchunks : max 1 ((name.length + 12) / 13) = (name.length + 12) / 13 := by
    have := length_pos_iff.mpr h.nonempty
    omega
  unfold buildLfnEntries
  simp only [hunits, length_map, hchunks]
  refine map_congr_left fun idx _ => ?_
  rw [pieceEntry, map_take, map_drop]

/-- The number of a slot, with the mark of the last piece. -/
theorem pieceEntry_number (hidx : idx < n) (hn : n ≤ 20) :
    let b := (pieceEntry name short n idx).getD 0 0
    b ≠ 0x00 ∧ b ≠ 0xE5 ∧ (b &&& 0x40 ≠ 0 ↔ idx + 1 = n) ∧ (b &&& 0x1F).toNat = idx + 1 := by
  have hfirst : ∀ n < 21, ∀ idx < n, let seq := UInt8.ofNat (idx + 1)
      let b := if seq = UInt8.ofNat n then seq ||| 0x40 else seq
      b ≠ 0x00 ∧ b ≠ 0xE5 ∧ (b &&& 0x40 ≠ 0 ↔ idx + 1 = n) ∧ (b &&& 0x1F).toNat = idx + 1 := by
    decide +kernel
  exact hfirst n (by omega) idx hidx

theorem pieceEntry_text (h : IsLongName name) (n idx : Nat) :
    lfnPartFromEntry (pieceEntry name short n idx) = (name.drop (13 * idx)).take 13 ∧
      (pieceEntry name short n idx).getD 11 0 = 0x0F := by
  unfold pieceEntry
  refine (lfnPartFromEntry_lfnEntry ?_ (by simp)).imp_left fun hread => hread.trans ?_
  · intro v hv
    obtain ⟨c, hc, rfl⟩ := mem_map.mp hv
    exact h.units c (mem_of_mem_drop (mem_of_mem_take hc))
  · rw [map_map]
    exact (map_congr_left fun c _ => Char.ofNat_toNat c).trans (map_id _)

/-- What the reader does with a slot of a piece. -/
theorem push_pieceEntry (h : IsLongName name) (hidx : idx < n) (hn : n ≤ 20)
    (lfn : LfnParts) : lfn.push (pieceEntry name short n idx) =
      let piece := (idx + 1, (name.drop (13 * idx)).take 13)
      if idx + 1 = n then ⟨[piece], true⟩
      else if lfn.active then ⟨lfn.parts ++ [piece], true⟩ else lfn := by
  obtain ⟨-, -, hmark, hnum⟩ := @pieceEntry_number name short _ _ hidx hn
  rw [LfnParts.push, hnum, (pieceEntry_text h n idx).1]
  by_cases hlast : idx + 1 = n
  · rw [if_pos (hmark.mpr hlast), if_pos rfl, if_pos hlast]
    rfl
  · rw [if_neg (mt hmark.mp hlast), if_neg hlast]
    rcases lfn with ⟨parts, _ | _⟩ <;> rfl

/-- The reader has all pieces, the last one first. -/
theorem foldl_push_buildLfnEntries (h : IsLongName name) (lfn : LfnParts) :
    (buildLfnEntries name short).foldl LfnParts.push lfn =
      ⟨(List.range ((name.length + 12) / 13)).reverse.map fun i =>
        (i + 1, (name.drop (13 * i)).take 13), true⟩ := by
  have hlen := h.length
  have hpos := length_pos_iff.mpr h.nonempty
  rw [buildLfnEntries_eq h]
  obtain ⟨n, hn⟩ : ∃ n, (name.length + 12) / 13 = n + 1 := ⟨(name.length + 12) / 13 - 1, by omega⟩
  have hrest : ∀ m ≤ n, ∀ parts, ((List.range m).reverse.map (pieceEntry name short (n + 1))).foldl
      LfnParts.push ⟨parts, true⟩ = ⟨parts ++ (List.range m).reverse.map fun i =>
        (i + 1, (name.drop (13 * i)).take 13), true⟩ := by
    intro m hm
    induction m with
    | zero => simp
    | succ m ih =>
      intro parts
      simp only [range_succ, reverse_append, reverse_singleton, singleton_append,
        map_cons, foldl_cons, push_pieceEntry h (show m < n + 1 by omega) (by omega)]
      rw [if_neg (by omega), if_pos trivial, ih (by omega)]
      simp
  simp only [hn, range_succ, reverse_append, reverse_singleton, singleton_append,
    map_cons, foldl_cons, push_pieceEntry h (Nat.lt_succ_self n) (by omega), if_true]
  rw [hrest n (Nat.le_refl n)]
  rfl

/-- The long name that is read: the pieces, the last one first. -/
theorem name_buildLfnEntries (h : IsLongName name) (lfn : LfnParts) :
    ((buildLfnEntries name short).foldl LfnParts.push lfn).name = (lfnPieces name).reverse.flatten := by
  rw [foldl_push_buildLfnEntries h, LfnParts.name, if_pos rfl, List.Pairwise.insertionSort_eq]
  · rw [lfnPieces, ← map_reverse, flatMap_map, flatMap_def]
  · rw [pairwise_map, pairwise_reverse]
    exact pairwise_lt_range.imp fun hlt => by omega

end Long

section Directory

open DeviceProg FatFsState

variable {st : FatFsState} {d : Disk} {c : Nat} {name : Str} {idxs : List Nat}

/-- The reader goes over the slots of a long name. -/
theorem listSlots_lfn
    (hslots : ∀ e ∈ slots, e.getD 0 0 ≠ 0x00 ∧ e.getD 0 0 ≠ 0xE5 ∧ e.getD 11 0 = 0x0F)
    (hidxs : idxs.map (fun k => Bytes.slice (32 * k) 32 buf) = slots) (rest : List Nat) :
    st.listSlots c buf (idxs ++ rest) lfn =
      st.listSlots c buf rest (slots.foldl LfnParts.push lfn) := by
  induction idxs generalizing slots lfn with
  | nil =>
    subst hidxs
    rfl
  | cons k idxs ih =>
    subst hidxs
    obtain ⟨⟨hend, hdeleted, hattr⟩, htail⟩ := forall_mem_cons.mp hslots
    rw [cons_append, listSlots, if_neg hend, if_neg hdeleted, if_pos hattr, ih htail rfl]
    rfl

/-- A directory with the slots of a long name and its entry, and no other slot in use. -/
structure HoldsOnly (st : FatFsState) (d : Disk) (c : Nat) (slots : List (List UInt8)) : Prop where
  chain : Chain st d [c]
  fits : 32 * slots.length ≤ st.clusterSize
  stored : (List.range slots.length).map (fun k => d.get (st.base c + 32 * k) 32) = slots
  empty : ∀ k, slots.length ≤ k → 32 * k + 32 ≤ st.clusterSize → d (st.base c + 32 * k) = 0x00

/-- What is listed of such a directory. -/
theorem exec_listDirEntries_of_holdsOnly (hg : st.Geometry) (h : HoldsOnly st d c (lfns ++ [entry]))
    (hlfns : ∀ e ∈ lfns, e.getD 0 0 ≠ 0x00 ∧ e.getD 0 0 ≠ 0xE5 ∧ e.getD 11 0 = 0x0F)
    (hentry : entry.getD 11 0 ≠ 0x0F) :
    exec (Disk.device VfsError) (st.listDirEntries c) d = some (.ok
      (if entry.getD 0 0 = 0x00 ∨ entry.getD 0 0 = 0xE5 then []
        else (st.entryNode c lfns.length (lfns.foldl LfnParts.push .clear) entry).toList), d) := by
  let buf := d.get (st.base c) st.clusterSize
  have hslice : ∀ k, 32 * k + 32 ≤ st.clusterSize →
      Bytes.slice (32 * k) 32 buf = d.get (st.base c + 32 * k) 32 := fun k hk => Disk.slice_get d hk
  have hfits := h.fits
  have hstored := h.stored
  rw [length_append, length_singleton] at hfits hstored
  rw [range_succ, map_append] at hstored
  obtain ⟨hpre, hlast⟩ := append_inj' hstored rfl
  replace hlast : d.get (st.base c + 32 * lfns.length) 32 = entry := (List.cons.inj hlast).1
  obtain ⟨left, hleft⟩ : ∃ left, st.clusterSize / 32 = lfns.length + 1 + left :=
    ⟨st.clusterSize / 32 - (lfns.length + 1), by omega⟩
  have hidx : slotIndices buf = List.range lfns.length ++ (lfns.length ::
      (List.range left).map (lfns.length + 1 + ·)) := by
    rw [slotIndices, Disk.length_get, hleft, range_add, range_succ, append_assoc]
    rfl
  -- The slots after the entry end the directory, or there are none.
  have hrest : ∀ idxs : List Nat, (∀ k ∈ idxs, lfns.length + 1 ≤ k ∧ 32 * k + 32 ≤ st.clusterSize) →
      ∃ r, st.listSlots c buf idxs .clear = ([], r) := by
    intro idxs hidxs
    cases idxs with
    | nil => exact ⟨_, rfl⟩
    | cons k idxs =>
      obtain ⟨hle, hlt⟩ := hidxs k mem_cons_self
      refine ⟨none, ?_⟩
      rw [listSlots, hslice k hlt, Disk.getD_get _ _ _ (by decide), if_pos]
      exact h.empty k (by simpa using hle) hlt
  obtain ⟨r, hr⟩ := hrest ((List.range left).map (lfns.length + 1 + ·)) fun k hk => by
    obtain ⟨i, hi, rfl⟩ := mem_map.mp hk
    rw [mem_range] at hi
    omega
  have hlist : ∃ r, st.listSlots c buf (slotIndices buf) .clear =
      (if entry.getD 0 0 = 0x00 ∨ entry.getD 0 0 = 0xE5 then []
        else (st.entryNode c lfns.length (lfns.foldl LfnParts.push .clear) entry).toList, r) := by
    rw [hidx, listSlots_lfn hlfns ((map_congr_left fun k hk => hslice k (by
      rw [mem_range] at hk; omega)).trans hpre), listSlots, hslice _ (by omega), hlast]
    by_cases hend : entry.getD 0 0 = 0x00
    · exact ⟨none, by rw [if_pos hend, if_pos (.inl hend)]⟩
    by_cases hdeleted : entry.getD 0 0 = 0xE5
    · exact ⟨r, by rw [if_neg hend, if_pos hdeleted, if_pos (.inr hdeleted), hr]⟩
    · refine ⟨r, ?_⟩
      rw [if_neg hend, if_neg hdeleted, if_neg hentry, if_neg (not_or.mpr ⟨hend, hdeleted⟩), hr]
      simp
  obtain ⟨r, hr⟩ := hlist
  rw [listDirEntries, rounds, listDirFrom, exec_bind, exec_readCluster (h.chain.clusters c (by simp)),
    Outcome.andThen_ok, hr]
  cases r with
  | none => rfl
  | some _ =>
    rw [exec_bind, @Chain.next_none st d c [] h.chain hg]
    rfl

/-- A long name is read back exactly if its pieces make it up in either order, it is not one of
the two names that are left out, and the short name marks no free slot. -/
theorem listDirEntries_longName_iff (hg : st.Geometry) (hname : IsLongName name)
    {entry : List UInt8} (hentry : entry.getD 11 0 ≠ 0x0F)
    (h : HoldsOnly st d c (buildLfnEntries name (entry.take 11) ++ [entry])) :
    ∃ listed, exec (Disk.device VfsError) (st.listDirEntries c) d = some (.ok listed, d) ∧
      (listed.map Prod.fst = [name] ↔ (lfnPieces name).reverse.flatten = name ∧
        name ≠ ['.'] ∧ name ≠ ['.', '.'] ∧ entry.getD 0 0 ≠ 0x00 ∧ entry.getD 0 0 ≠ 0xE5) := by
  have hlen := hname.length
  have hlfns : ∀ e ∈ buildLfnEntries name (entry.take 11),
      e.getD 0 0 ≠ 0x00 ∧ e.getD 0 0 ≠ 0xE5 ∧ e.getD 11 0 = 0x0F := by
    rw [buildLfnEntries_eq hname]
    intro e he
    obtain ⟨idx, hidx, rfl⟩ := mem_map.mp he
    rw [mem_reverse, mem_range] at hidx
    obtain ⟨hend, hdeleted, -⟩ := @pieceEntry_number name (entry.take 11) _ _ hidx (by omega)
    exact ⟨hend, hdeleted, (pieceEntry_text hname _ _).2⟩
  refine ⟨_, exec_listDirEntries_of_holdsOnly hg h hlfns hentry, ?_⟩
  have htext := @name_buildLfnEntries name (entry.take 11) hname .clear
  have hne : (lfnPieces name).reverse.flatten ≠ [] := by
    intro hnil
    have hfirst : name.take 13 ∈ (lfnPieces name).reverse := by
      rw [mem_reverse, lfnPieces, mem_map]
      exact ⟨0, mem_range.mpr (by have := length_pos_iff.mpr hname.nonempty; omega), rfl⟩
    simpa [hname.nonempty] using flatten_eq_nil_iff.mp hnil _ hfirst
  rw [entryNode, htext, if_neg hne]
  grind

/-- The slots of a name, with an entry under an alias. -/
def namedSlots (name : Str) (short : List UInt8) : List (List UInt8) :=
  buildLfnEntries name short ++ [buildDirEntry short 0x20 0 0]

theorem dirDisk_holdsOnly (hfits : slots.length ≤ 4)
    (hstored : (List.range slots.length).map (fun k => (dirDisk slots).get (20 + 32 * k) 32) = slots)
    (hempty : ∀ k < 4, slots.length ≤ k → dirDisk slots (20 + 32 * k) = 0x00)
    (hlast : dirVolume.fat (dirDisk slots) 2 = FatEoc) :
    HoldsOnly dirVolume (dirDisk slots) 2 slots := by
  have hsize : dirVolume.clusterSize = 128 := rfl
  refine ⟨⟨?_, .singleton _, ?_, by simp⟩, by omega, hstored, fun k hle hk => hempty k (by omega) hle⟩
  · rintro c hc
    obtain rfl := mem_singleton.mp hc
    exact ⟨by decide, by decide⟩
  · rintro c ⟨⟩
    exact hlast.ge.trans' (by decide)

theorem listDirEntries_onePiece :
    let name := ['a', '.', 'b', '.', 'c']
    let disk := dirDisk (namedSlots name (padBlank 11 [0x41, 0x7E, 0x31]))
    ∃ listed, exec (Disk.device VfsError) (dirVolume.listDirEntries 2) disk = some (.ok listed, disk) ∧
      listed.map Prod.fst = [name] := by
  intro name disk
  obtain ⟨listed, hrun, hiff⟩ := @listDirEntries_longName_iff dirVolume disk 2 name
    dirVolume_geometry ⟨by decide, by decide, by simp [name, IsUnit]⟩
    (buildDirEntry (padBlank 11 [0x41, 0x7E, 0x31]) 0x20 0 0) (by decide)
    (dirDisk_holdsOnly (by decide +kernel) (by decide +kernel) (by decide +kernel) (by decide +kernel))
  exact ⟨listed, hrun, hiff.mpr (by decide +kernel)⟩

/-- A name of two pieces is read with the second piece in front. -/
theorem listDirEntries_twoPieces :
    let name := List.replicate 13 'a' ++ ['b']
    let slots := namedSlots name (padBlank 11 [0x41, 0x7E, 0x31])
    IsLongName name ∧ HoldsOnly dirVolume (dirDisk slots) 2 slots ∧
      (exec (Disk.device VfsError) (dirVolume.listDirEntries 2) (dirDisk slots)).map
        (fun r => r.1.toOption.map (List.map Prod.fst)) = some (some ['b' :: List.replicate 13 'a']) := by
  refine ⟨⟨by decide, by decide, by simp [IsUnit]⟩, ?_, by decide +kernel⟩
  exact dirDisk_holdsOnly (by decide +kernel) (by decide +kernel) (by decide +kernel)
    (by decide +kernel)

end Directory

end BoruixKernel
