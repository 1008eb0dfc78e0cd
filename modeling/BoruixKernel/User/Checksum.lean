import BoruixKernel.User.GetnetStream
import BoruixKernel.Lib.OnesComplement

/-!
# Internet checksums

The sums are taken in 32 bits.  For every segment that has a 16-bit length they are exact, so that
the checksums are complements of one's complement sums, and a packet with its checksum has a sum
without zero bits.
-/

namespace BoruixKernel.Getnet

open OnesComplement

def IpProtoUdp : UInt8 := 17

variable (src dst : Vector UInt8 4) (proto : UInt8) (segment : List UInt8)

/-- The sum of a segment and its pseudo header, as the functions take it. -/
def segmentSum : UInt32 :=
  wordSum segment (wordSum dst.toList (wordSum src.toList 0) + proto.toUInt32 +
    UInt32.ofNat (segment.length % 2 ^ 16))

/-- The same sum without a bound. -/
def segmentTotal : Nat :=
  total src.toList + total dst.toList + proto.toNat + segment.length % 2 ^ 16 + total segment

def udpChecksum : UInt16 :=
  let csum := ~~~ (foldCarries 2 (segmentSum src dst IpProtoUdp segment)).toUInt16
  if csum = 0 then 0xffff else csum

/-- The folded sum has no zero bits. -/
def Verifies : Prop := fold (segmentTotal src dst proto segment) = 0xffff

/-! ## The sums are exact -/

theorem wordSum_exact (h : sum.toNat + total data < 2 ^ 32) :
    (wordSum data sum).toNat = sum.toNat + total data := by
  fun_induction wordSum data sum with
  | case1 a b rest sum ih =>
    rw [total] at h ⊢
    have hstep : (sum + UInt32.ofNat (Bytes.toNatBe [a, b])).toNat = sum.toNat + Bytes.toNatBe [a, b] := by
      rw [UInt32.toNat_add, UInt32.toNat_ofNat']
      omega
    rw [ih (by omega), hstep, Nat.add_assoc]
  | case2 a sum =>
    rw [total] at h ⊢
    have hshift : (a.toUInt32 <<< 8).toNat = a.toNat * 256 := by
      have := a.toNat_lt
      simp [Nat.shiftLeft_eq]
      omega
    rw [UInt32.toNat_add, hshift]
    omega
  | case3 sum => rfl

/-- Two rounds are enough for a sum of 32 bits. -/
theorem foldCarries_exact (sum : UInt32) : (foldCarries 2 sum).toNat = fold sum.toNat := by
  have hround : ∀ sum : UInt32, ((sum &&& (0xffff : UInt32)) + (sum >>> 16)).toNat =
      sum.toNat % 2 ^ 16 + sum.toNat / 2 ^ 16 := by
    intro sum
    have hlow : sum.toNat &&& 65535 = sum.toNat % 2 ^ 16 := Nat.and_two_pow_sub_one_eq_mod _ 16
    have := sum.toNat_lt
    simp [hlow, Nat.shiftRight_eq_div_pow]
    omega
  have hdone : ∀ sum : UInt32, sum >>> 16 = 0 ↔ sum.toNat < 2 ^ 16 := by
    intro sum
    rw [← UInt32.toNat_inj]
    simp [Nat.shiftRight_eq_div_pow]
  have hlt := sum.toNat_lt
  rw [foldCarries, fold]
  simp only [hdone]
  split
  · rfl
  · rw [foldCarries, fold, foldCarries, ← hround sum]
    simp only [hdone]
    split
    · rfl
    · next hcarry =>
      rw [hround, fold, if_pos]
      rw [hround] at hcarry ⊢
      omega

theorem toNat_complement (sum : UInt32) :
    (~~~ (foldCarries 2 sum).toUInt16).toNat = 65535 - fold sum.toNat := by
  have := (fold_spec sum.toNat).1
  rw [UInt16.toNat_not, UInt32.toNat_toUInt16, foldCarries_exact, Nat.mod_eq_of_lt this]
  rfl

variable {segment} in
theorem segmentSum_exact (h : segment.length ≤ 65535) :
    (segmentSum src dst proto segment).toNat = segmentTotal src dst proto segment := by
  have hsrc := total_le src.toList
  have hdst := total_le dst.toList
  have hseg := total_le segment
  have hproto := proto.toNat_lt
  rw [Vector.length_toList] at hsrc hdst
  have hs : (wordSum src.toList 0).toNat = total src.toList := by
    rw [wordSum_exact (by rw [UInt32.toNat_zero]; omega), UInt32.toNat_zero, Nat.zero_add]
  have hd : (wordSum dst.toList (wordSum src.toList 0)).toNat = total src.toList + total dst.toList := by
    rw [wordSum_exact (by omega), hs]
  have hpseudo : (wordSum dst.toList (wordSum src.toList 0) + proto.toUInt32 +
      UInt32.ofNat (segment.length % 2 ^ 16)).toNat =
      total src.toList + total dst.toList + proto.toNat + segment.length % 2 ^ 16 := by
    rw [UInt32.toNat_add, UInt32.toNat_add, hd, UInt8.toNat_toUInt32, UInt32.toNat_ofNat']
    omega
  rw [segmentSum, wordSum_exact (by omega), hpseudo, segmentTotal]

/-! ## Verification -/

variable {src dst proto segment} in
/-- A checksum verifies if it is the complement of the sum, in either form of zero. -/
theorem verifies_store {off : Nat} {csum : UInt16} (hoff : 2 ∣ off)
    (hfield : Bytes.slice off 2 segment = [0, 0]) (hproto : 0 < proto.toNat)
    (hcsum : csum.toNat % 65535 = (65535 - fold (segmentTotal src dst proto segment)) % 65535) :
    Verifies src dst proto (Bytes.store off (Bytes.ofNatBe 2 csum.toNat) segment) := by
  have hlen := congrArg List.length hfield
  rw [Bytes.length_slice, List.length_cons, List.length_singleton] at hlen
  have htotal : segmentTotal src dst proto (Bytes.store off (Bytes.ofNatBe 2 csum.toNat) segment) =
      segmentTotal src dst proto segment + csum.toNat := by
    rw [segmentTotal, Bytes.length_store (by rw [Bytes.length_ofNatBe]; omega),
      total_store hoff hfield csum.toNat_lt, ← Nat.add_assoc, segmentTotal]
  have hpos : 0 < segmentTotal src dst proto segment := by
    rw [segmentTotal]
    omega
  have hsum := fold_spec (segmentTotal src dst proto segment)
  have hall := fold_spec (segmentTotal src dst proto segment + csum.toNat)
  rw [Verifies, htotal]
  omega

/-- With its own checksum a header has the checksum zero. -/
theorem checksum16_header {totalLen ident : Nat} {header : List UInt8}
    (h : buildIpv4Header totalLen proto src.toList dst.toList ident = header) :
    checksum16 header = 0 ∧ (wordSum header 0).toNat = total header := by
  rw [buildIpv4Header] at h
  generalize hfields : ipv4Fields totalLen proto src.toList dst.toList ident = fields at h
  have hexact : ∀ csum, (wordSum (fields csum) 0).toNat = total (fields csum) := by
    intro csum
    have hle := total_le (fields csum)
    rw [← hfields, length_ipv4Fields, hfields] at hle
    rw [wordSum_exact (by rw [UInt32.toNat_zero]; omega), UInt32.toNat_zero, Nat.zero_add]
  -- The pieces of a header have an even length.
  have hsplit : ∀ csum, total (fields csum) = total (fields 0) + csum.toNat ∧ 0x4500 ≤ total (fields csum) := by
    intro csum
    have hzero : total (Bytes.ofNatBe 2 (UInt16.toNat 0)) = 0 := rfl
    have hfirst : total [0x45, 0] = 0x4500 := rfl
    rw [← hfields]
    simp (disch := simp) only [ipv4Fields, total_append, total_ofNatBe csum.toNat_lt, hzero, hfirst]
    omega
  have hpos := (hsplit 0).2
  subst h
  refine ⟨?_, hexact _⟩
  rw [← UInt16.toNat_inj, checksum16, toNat_complement, hexact, (hsplit _).1, checksum16,
    toNat_complement, hexact, fold_complement (by omega)]
  rfl

/-- The checksums of packets verify, and the sums they are made from are the exact ones, so that no
sum on the way to them overflows. -/
theorem checksums_verify :
    (∀ segment : List UInt8, segment.length ≤ 65535 →
      (∀ proto, (segmentSum src dst proto segment).toNat = segmentTotal src dst proto segment) ∧
      (Bytes.slice 16 2 segment = [0, 0] → Verifies src dst IpProtoTcp
        (Bytes.store 16 (Bytes.ofNatBe 2 (tcpChecksum src.toList dst.toList segment).toNat) segment)) ∧
      (Bytes.slice 6 2 segment = [0, 0] → Verifies src dst IpProtoUdp
        (Bytes.store 6 (Bytes.ofNatBe 2 (udpChecksum src dst segment).toNat) segment)) ∧
      udpChecksum src dst segment ≠ 0) ∧
    ∀ totalLen proto ident header, buildIpv4Header totalLen proto src.toList dst.toList ident = header →
      checksum16 header = 0 ∧ (wordSum header 0).toNat = total header := by
  refine ⟨fun segment hlen => ⟨fun proto => segmentSum_exact src dst proto hlen, fun hfield => ?_,
    fun hfield => ?_, ?_⟩, fun _ proto _ _ h => checksum16_header src dst proto h⟩
  · refine verifies_store (by decide) hfield (by decide) ?_
    rw [← segmentSum_exact src dst _ hlen, ← toNat_complement]
    rfl
  · refine verifies_store (by decide) hfield (by decide) ?_
    rw [← segmentSum_exact src dst _ hlen, ← toNat_complement, udpChecksum]
    split
    · next hzero =>
      rw [hzero]
      rfl
    · rfl
  · rw [udpChecksum]
    split
    · decide
    · assumption

end BoruixKernel.Getnet
