import PktKit.Packet

/-! # Transport checksums

The transport header of a packet lies behind its IPv4 options or its chain of IPv6 extension headers. The
chain is walked three times over: for the header itself, for a Fragment header, and for the final
destination, which the pseudo-header holds. What is written into the checksum field is read by none of them.
-/

namespace PktKit
open Foundations

def PROTO_ICMPV6 : UInt8 := 58

namespace Ext

def HOPOPT : UInt8 := 0
def ROUTING : UInt8 := 43
def FRAGMENT : UInt8 := 44
def AH : UInt8 := 51
def DEST_OPTS : UInt8 := 60
def MOBILITY : UInt8 := 135
def HIP : UInt8 := 139
def SHIM6 : UInt8 := 140

/-- Headers that give their own length. -/
def sized (nh : UInt8) : Bool :=
  nh == HOPOPT || nh == ROUTING || nh == AH || nh == DEST_OPTS || nh == MOBILITY || nh == HIP || nh == SHIM6

end Ext

open Ext

/-- How many extension headers are walked. -/
def MAX_EXT_HEADERS : ℕ := 16

inductive Octets
  | v4 (bytes : List UInt8)
  | v6 (bytes : List UInt8)
deriving DecidableEq

namespace Packet

/-! ## The chain of extension headers -/

/-- The length an extension header at `off` gives: in words less two for an Authentication header, and in
eight bytes less one for all others. -/
def extLen (buf : Packet) (nh : UInt8) (off : ℕ) : ℕ :=
  if nh = AH then ((buf.byte (off + 1)).toNat + 2) * 4 else ((buf.byte (off + 1)).toNat + 1) * 8

/-- The upper-layer protocol behind `k` extension headers at most, and where it begins. -/
def skipIpv6Ext (buf : Packet) : ℕ → UInt8 → ℕ → UInt8 × ℕ
  | 0, nh, off => (nh, min off buf.length)
  | k + 1, nh, off =>
    if sized nh then
      if buf.length < off + 2 then (nh, off)
      else
        let next := off + buf.extLen nh off
        if buf.length < next then (buf.byte off, buf.length) else buf.skipIpv6Ext k (buf.byte off) next
    else if nh = FRAGMENT then
      if buf.length < off + 8 then (nh, off)
      else if buf.be16 (off + 2) / 8 ≠ 0 then (FRAGMENT, off)
      else buf.skipIpv6Ext k (buf.byte off) (off + 8)
    else (nh, off)

/-- Whether there is a Fragment header among them. -/
def hasFragmentExt (buf : Packet) : ℕ → UInt8 → ℕ → Bool
  | 0, _, _ => false
  | k + 1, nh, off =>
    if nh = FRAGMENT then true
    else if sized nh then
      if buf.length < off + 2 then false
      else
        let next := off + buf.extLen nh off
        if buf.length < next then false else buf.hasFragmentExt k (buf.byte off) next
    else false

/-- An address listed in a Routing header of `len` bytes at `off`. -/
def addrAt (buf : Packet) (off len i : ℕ) : Option (List UInt8) :=
  let start := off + 8 + 16 * i
  if off + len < start + 16 then none
  else if buf.length < start + 16 then none
  else some (slice buf start (start + 16))

/-- Where a Routing header leads, if it is still to be followed. -/
def routedTo (buf : Packet) (off : ℕ) (dst : List UInt8) : List UInt8 :=
  let len := ((buf.byte (off + 1)).toNat + 1) * 8
  let rtype := buf.byte (off + 2)
  let n := (len - 8) / 16
  if buf.byte (off + 3) = 0 then dst
  else
    let last :=
      if rtype = 0 ∧ 0 < n then buf.addrAt off len (n - 1)
      else if rtype = 2 ∨ rtype = 4 then buf.addrAt off len 0
      else none
    last.getD dst

/-- The final destination, by the first Routing header among `k` extension headers. -/
def finalDst (buf : Packet) (dst : List UInt8) : ℕ → UInt8 → ℕ → List UInt8
  | 0, _, _ => dst
  | k + 1, nh, off =>
    if nh = ROUTING then if buf.length < off + 8 then dst else buf.routedTo off dst
    else if sized nh then
      if buf.length < off + 2 then dst else buf.finalDst dst k (buf.byte off) (off + buf.extLen nh off)
    else if nh = FRAGMENT then
      if buf.length < off + 1 then dst else buf.finalDst dst k (buf.byte off) (off + 8)
    else dst

/-! ## The fields -/

def ipv6PayloadLen (p : Packet) : ℕ := p.be16 4

def ipv6Transport (p : Packet) : UInt8 × ℕ :=
  if p.version ≠ 6 ∨ p.length < 40 then (0, 0) else p.skipIpv6Ext MAX_EXT_HEADERS (p.byte 6) 40

def srcAddr (p : Packet) : Option Octets :=
  if p.version = 4 then if p.length < 16 then none else some (.v4 (slice p 12 16))
  else if p.version = 6 then if p.length < 24 then none else some (.v6 (slice p 8 24))
  else none

def pseudoHeaderDst (p : Packet) : Option Octets :=
  if p.version = 4 then if p.length < 20 then none else some (.v4 (slice p 16 20))
  else if p.version = 6 then
    if p.length < 40 then none else some (.v6 (p.finalDst (slice p 24 40) MAX_EXT_HEADERS (p.byte 6) 40))
  else none

def transportProtocol (p : Packet) : UInt8 :=
  if p.version = 4 then p.byte 9 else if p.version = 6 then p.ipv6Transport.1 else 0

def isFragment (p : Packet) : Bool :=
  if p.version = 4 then p.ipv4MoreFragments || p.ipv4FragmentOffset != 0
  else if p.version = 6 then !decide (p.length < 40) && p.hasFragmentExt MAX_EXT_HEADERS (p.byte 6) 40
  else false

/-- Where the transport header begins and the packet ends by its own length; nowhere if it does not fit. -/
def transportRange (p : Packet) : ℕ × ℕ :=
  if p.version = 4 then
    let hl := p.ipv4HeaderLen
    let tl := p.ipv4TotalLen
    if hl < 20 ∨ tl < hl ∨ p.length < tl then (0, 0) else (hl, tl)
  else if p.version = 6 then
    let off := p.ipv6Transport.2
    let stop := min (40 + p.ipv6PayloadLen) p.length
    if stop ≤ off then (0, 0) else (off, stop)
  else (0, 0)

def transportPayload (p : Packet) : List UInt8 := slice p p.transportRange.1 p.transportRange.2

end Packet

/-! ## The checksums -/

def pseudoHeaderSum (proto : UInt8) : Octets → Octets → ℕ → ℕ
  | .v4 src, .v4 dst, length => pseudoHeaderChecksum proto src dst length
  | .v6 src, .v6 dst, length =>
    65535 - checksum (src ++ dst ++ [0, 0] ++ be16Bytes length ++ [0, 0, 0, proto])
  | _, _, _ => 0

def transportSum (proto : UInt8) (src dst : Octets) (pdu : List UInt8) : ℕ :=
  combineChecksums (pseudoHeaderSum proto src dst (min pdu.length 65535)) (65535 - checksum pdu)

def transportChecksum (proto : UInt8) (src dst : Octets) (pdu : List UInt8) : ℕ :=
  65535 - transportSum proto src dst pdu

/-- The length a UDP header gives, if the datagram fits. -/
def udpLen (udp : List UInt8) : Option ℕ :=
  if udp.length < 6 then none
  else
    let len := Packet.be16 udp 4
    if 8 ≤ len ∧ len ≤ udp.length then some len else none

namespace Packet

def verifyTransportChecksum (p : Packet) : Option Bool :=
  let proto := p.transportProtocol
  match p.srcAddr, p.pseudoHeaderDst with
  | some src, some dst =>
    if p.isFragment then none
    else
      let payload := p.transportPayload
      if proto = PROTO_TCP ∧ 20 ≤ payload.length then some (transportSum proto src dst payload == 0xFFFF)
      else if proto = PROTO_UDP ∧ 8 ≤ payload.length then
        if slice payload 6 8 = [0, 0] ∧ p.version = 4 then none
        else match udpLen payload with
          | some len => some (transportSum proto src dst (payload.take len) == 0xFFFF)
          | none => some false
      else if proto = PROTO_ICMPV6 ∧ 4 ≤ payload.length then some (transportSum proto src dst payload == 0xFFFF)
      else if proto = PROTO_ICMP ∧ 4 ≤ payload.length then some (checksum payload == 0)
      else none
  | _, _ => none

def checksumField (proto : UInt8) : Option ℕ :=
  if proto = PROTO_TCP then some 16
  else if proto = PROTO_UDP then some 6
  else if proto = PROTO_ICMP ∨ proto = PROTO_ICMPV6 then some 2
  else none

/-- How much of a payload the checksum covers: a UDP datagram as its own length says, if it fits. -/
def covered (proto : UInt8) (payload : List UInt8) : Option ℕ :=
  if proto = PROTO_UDP then udpLen payload else some payload.length

/-- The checksum of a header whose field holds zero; a UDP checksum is never zero. -/
def checksumFor (proto : UInt8) (src dst : Octets) (pdu : List UInt8) : ℕ :=
  let sum := if proto = PROTO_ICMP then checksum pdu else transportChecksum proto src dst pdu
  if proto = PROTO_UDP ∧ sum = 0 then 0xFFFF else sum

/-- Write the checksum; `none` if there is none to write. -/
def recomputeTransportChecksum (p : Packet) : Option Packet :=
  let proto := p.transportProtocol
  match p.srcAddr, p.pseudoHeaderDst, checksumField proto with
  | some src, some dst, some field =>
    if p.isFragment then none
    else if p.transportPayload.length < field + 2 then none
    else match covered proto p.transportPayload with
      | none => none
      | some len =>
        let zeroed := p.setBe16 (p.transportRange.1 + field) 0
        let sum := checksumFor proto src dst (slice zeroed p.transportRange.1 (p.transportRange.1 + len))
        some (zeroed.setBe16 (zeroed.transportRange.1 + field) sum)
  | _, _, _ => none

/-! ## Writing behind the chain -/

section Chain

variable {b : Packet} {new : List UInt8} {dst : List UInt8} {proto nh : UInt8} {i j k n o off : ℕ}

theorem byte_overwrite (h : i + new.length ≤ b.length) (hj : j < i) : byte (overwrite b i new) j = byte b j := by
  rw [byte, getD_overwrite h, if_neg (by omega)]
  rfl

theorem be16_overwrite (h : i + new.length ≤ b.length) (hj : j + 1 < i) :
    be16 (overwrite b i new) j = be16 b j := by
  rw [be16, byte_overwrite h (by omega), byte_overwrite h hj]
  rfl

def Upper (proto : UInt8) : Prop := sized proto = false ∧ proto ≠ FRAGMENT

instance : Decidable (Upper proto) := inferInstanceAs (Decidable (_ ∧ _))

theorem extLen_overwrite (h : i + new.length ≤ b.length) (hoff : off + 1 < i) :
    extLen (overwrite b i new) nh off = extLen b nh off := by
  rw [extLen, byte_overwrite h hoff]
  rfl

theorem le_extLen (b : Packet) (nh : UInt8) (off : ℕ) : 8 ≤ extLen b nh off := by
  rw [extLen]
  split
  all_goals omega

theorem extLen_routing : extLen b ROUTING off = ((b.byte (off + 1)).toNat + 1) * 8 := if_neg (by decide)

theorem addrAt_overwrite (h : i + new.length ≤ b.length) (hi : min (off + n) b.length ≤ i) :
    addrAt (overwrite b i new) off n j = addrAt b off n j := by
  simp only [addrAt, length_overwrite h]
  split
  · rfl
  · split
    · rfl
    · rw [slice_overwrite_of_disjoint h (.inl (by omega))]

/-- A Routing header that ends before what is written. -/
theorem routedTo_overwrite (h : i + new.length ≤ b.length) (hoff : off + 8 ≤ i)
    (hi : min (off + extLen b ROUTING off) b.length ≤ i) :
    routedTo (overwrite b i new) off dst = routedTo b off dst := by
  rw [extLen_routing] at hi
  simp only [routedTo, byte_overwrite h (show off + 1 < i by omega), byte_overwrite h (show off + 2 < i by omega),
    byte_overwrite h (show off + 3 < i by omega), addrAt_overwrite h hi]

/-- Past the end there is no more to follow. -/
theorem finalDst_of_lt (h : b.length < off) : finalDst b dst k nh off = dst := by
  cases k with
  | zero => rfl
  | succ k =>
    simp only [finalDst, if_pos (show b.length < off + 8 by omega), if_pos (show b.length < off + 2 by omega),
      if_pos (show b.length < off + 1 by omega), ite_self]

/-- The three walks read nothing from where the upper-layer header begins on. -/
theorem walk_overwrite (dst : List UInt8) (h : i + new.length ≤ b.length) (hoff : off ≤ b.length)
    (hskip : b.skipIpv6Ext k nh off = (proto, o)) (hup : Upper proto) (hi : o ≤ i) :
    off ≤ o ∧ skipIpv6Ext (overwrite b i new) k nh off = (proto, o) ∧
      hasFragmentExt (overwrite b i new) k nh off = b.hasFragmentExt k nh off ∧
      (b.hasFragmentExt k nh off = false →
        finalDst (overwrite b i new) dst k nh off = b.finalDst dst k nh off) := by
  induction k generalizing nh off with
  | zero =>
    simp only [skipIpv6Ext, Prod.mk.injEq, min_eq_left hoff] at hskip
    obtain ⟨rfl, rfl⟩ := hskip
    simp [skipIpv6Ext, hasFragmentExt, finalDst, length_overwrite h, hoff]
  | succ k ih =>
    simp only [skipIpv6Ext] at hskip
    by_cases hs : sized nh
    · have hnf : nh ≠ FRAGMENT := fun hf => by rw [hf] at hs; exact absurd hs (by decide)
      have hlen := le_extLen b nh off
      rw [if_pos hs] at hskip
      split at hskip
      · obtain ⟨rfl, -⟩ := Prod.mk.inj hskip
        exact absurd hs (Bool.eq_false_iff.mp hup.1)
      next hroom =>
      split at hskip
      · -- the header ends past the buffer: the walk is over
        next hpast =>
        obtain ⟨rfl, rfl⟩ := Prod.mk.inj hskip
        have hbyte : byte (overwrite b i new) off = byte b off := byte_overwrite h (by omega)
        have hext : extLen (overwrite b i new) nh off = extLen b nh off := extLen_overwrite h (by omega)
        refine ⟨hoff, ?_, ?_, fun _ => ?_⟩
        · simp only [skipIpv6Ext, if_pos hs, length_overwrite h, if_neg hroom, hext, if_pos hpast, hbyte]
        · simp only [hasFragmentExt, if_neg hnf, if_pos hs, length_overwrite h, if_neg hroom, hext, if_pos hpast]
        · by_cases hr : nh = ROUTING
          · simp only [finalDst, if_pos hr, length_overwrite h]
            split
            · rfl
            · exact routedTo_overwrite h (by omega) (by omega)
          · simp only [finalDst, if_neg hr, if_pos hs, length_overwrite h, if_neg hroom, hext]
            rw [finalDst_of_lt hpast, finalDst_of_lt (by rwa [length_overwrite h])]
      · next hin =>
        obtain ⟨hle, hskip', hfrag, hdst⟩ := ih (not_lt.mp hin) hskip
        have hbyte : byte (overwrite b i new) off = byte b off := byte_overwrite h (by omega)
        have hext : extLen (overwrite b i new) nh off = extLen b nh off := extLen_overwrite h (by omega)
        refine ⟨by omega, ?_, ?_, fun hno => ?_⟩
        · simp only [skipIpv6Ext, if_pos hs, length_overwrite h, if_neg hroom, hext, if_neg hin, hbyte, hskip']
        · simp only [hasFragmentExt, if_neg hnf, if_pos hs, length_overwrite h, if_neg hroom, hext, if_neg hin,
            hbyte, hfrag]
        · by_cases hr : nh = ROUTING
          · simp only [finalDst, if_pos hr, length_overwrite h]
            rw [hr] at hle hlen
            rw [routedTo_overwrite h (by omega) (by omega)]
          · simp only [hasFragmentExt, if_neg hnf, if_pos hs, if_neg hroom, if_neg hin] at hno
            simp only [finalDst, if_neg hr, if_pos hs, length_overwrite h, if_neg hroom, hext, hbyte, hdst hno]
    · rw [if_neg hs] at hskip
      split at hskip
      · next hf =>
        split at hskip
        · obtain ⟨rfl, -⟩ := Prod.mk.inj hskip
          exact absurd hf hup.2
        next hroom =>
        split at hskip
        · obtain ⟨rfl, -⟩ := Prod.mk.inj hskip
          exact absurd rfl hup.2
        next hfirst =>
        obtain ⟨hle, hskip', -⟩ := ih (not_lt.mp hroom) hskip
        refine ⟨by omega, ?_, ?_, fun hno => ?_⟩
        · have hbyte : byte (overwrite b i new) off = byte b off := byte_overwrite h (by omega)
          have hfield : be16 (overwrite b i new) (off + 2) = be16 b (off + 2) := be16_overwrite h (by omega)
          simp only [skipIpv6Ext, if_neg hs, if_pos hf, length_overwrite h, if_neg hroom, hfield, if_neg hfirst,
            hbyte, hskip']
        · simp only [hasFragmentExt, if_pos hf]
        · simp only [hasFragmentExt, if_pos hf] at hno
          cases hno
      · next hnf =>
        obtain ⟨rfl, rfl⟩ := Prod.mk.inj hskip
        have hr : nh ≠ ROUTING := fun hr => hs (by rw [hr]; decide)
        simp [skipIpv6Ext, hasFragmentExt, finalDst, hs, hnf, hr]

end Chain

/-! ## Writing into the transport header -/

variable {p : Packet} {new : List UInt8} {i : ℕ}

theorem upper_of_checksumField {proto : UInt8} (h : (checksumField proto).isSome = true) : Upper proto := by
  unfold checksumField at h
  split_ifs at h with htcp hudp hicmp
  · rw [htcp]
    decide
  · rw [hudp]
    decide
  · rcases hicmp with h | h
    · rw [h]
      decide
    · rw [h]
      decide
  · cases h

/-- Where the transport header begins there is a whole IP header before it. -/
structure Behind (p : Packet) (i : ℕ) (new : List UInt8) : Prop where
  fits : i + new.length ≤ p.length
  upper : Upper p.transportProtocol
  whole : p.isFragment = false
  nonempty : p.transportRange.1 < p.transportRange.2
  start : p.transportRange.1 ≤ i

theorem Behind.version_cases (h : Behind p i new) : p.version = 4 ∧ 20 ≤ i ∨ p.version = 6 ∧ 40 ≤ p.length ∧
    p.skipIpv6Ext MAX_EXT_HEADERS (p.byte 6) 40 = (p.transportProtocol, p.transportRange.1) := by
  have hne := h.nonempty
  have hstart := h.start
  by_cases h4 : p.version = 4
  · refine .inl ⟨h4, ?_⟩
    simp only [transportRange, if_pos h4] at hne hstart
    split at hne
    · simp at hne
    · next hok =>
      rw [if_neg hok] at hstart
      dsimp only at hstart
      omega
  · by_cases h6 : p.version = 6
    · have hup := h.upper
      have h40 : 40 ≤ p.length := by
        by_contra hlt
        have hzero : p.transportProtocol = 0 := by simp [transportProtocol, h6, ipv6Transport, not_le.mp hlt]
        rw [hzero] at hup
        exact absurd hup.1 (by decide)
      refine .inr ⟨h6, h40, ?_⟩
      have htransport : p.ipv6Transport = p.skipIpv6Ext MAX_EXT_HEADERS (p.byte 6) 40 := by
        rw [ipv6Transport, if_neg (by omega)]
      have hrange : p.transportRange.1 = p.ipv6Transport.2 := by
        simp only [transportRange, if_neg h4, if_pos h6] at hne ⊢
        split at hne
        · simp at hne
        · next hok => rw [if_neg hok]
      rw [hrange, transportProtocol, if_neg h4, if_pos h6, htransport]
    · simp only [transportRange, if_neg h4, if_neg h6] at hne
      simp at hne

/-- What is written behind the IP headers leaves everything read before it. -/
structure SameHeaders (p q : Packet) : Prop where
  length : q.length = p.length
  version : q.version = p.version
  src : q.srcAddr = p.srcAddr
  dst : q.pseudoHeaderDst = p.pseudoHeaderDst
  proto : q.transportProtocol = p.transportProtocol
  fragment : q.isFragment = p.isFragment
  range : q.transportRange = p.transportRange

theorem Behind.same (h : Behind p i new) : SameHeaders p (overwrite p i new) := by
  have hlen : (overwrite p i new).length = p.length := length_overwrite h.fits
  rcases h.version_cases with ⟨h4, hi⟩ | ⟨h6, h40, hskip⟩
  · have hbyte : ∀ j < 20, byte (overwrite p i new) j = byte p j := fun j hj => byte_overwrite h.fits (by omega)
    have hversion : version (overwrite p i new) = version p := by rw [version, hbyte 0 (by norm_num)]; rfl
    have h4' : version (overwrite p i new) = 4 := hversion.trans h4
    refine ⟨hlen, hversion, ?_, ?_, ?_, ?_, ?_⟩
    · simp only [srcAddr, if_pos h4, if_pos h4', hlen, slice_overwrite_of_disjoint h.fits
        (.inl (by omega : 16 ≤ i))]
    · simp only [pseudoHeaderDst, if_pos h4, if_pos h4', hlen,
        slice_overwrite_of_disjoint h.fits (.inl (by omega : 20 ≤ i))]
    · simp only [transportProtocol, if_pos h4, if_pos h4', hbyte 9 (by norm_num)]
    · simp only [isFragment, if_pos h4, if_pos h4', ipv4MoreFragments, ipv4FragmentOffset,
        be16_overwrite h.fits (by omega : 6 + 1 < i), hbyte 6 (by norm_num)]
    · simp only [transportRange, if_pos h4, if_pos h4', ipv4HeaderLen, ipv4TotalLen, hlen,
        be16_overwrite h.fits (by omega : 2 + 1 < i), hbyte 0 (by norm_num)]
      rfl
  · have h4 : p.version ≠ 4 := by omega
    have hwhole : p.hasFragmentExt MAX_EXT_HEADERS (p.byte 6) 40 = false := by
      have hwhole := h.whole
      simpa [isFragment, h6, not_lt.mpr h40] using hwhole
    obtain ⟨ho, hskip', hfrag, hdst⟩ := walk_overwrite (slice p 24 40) h.fits h40 hskip h.upper h.start
    have hi : 40 ≤ i := ho.trans h.start
    have hbyte : ∀ j < 40, byte (overwrite p i new) j = byte p j := fun j hj => byte_overwrite h.fits (by omega)
    have hversion : version (overwrite p i new) = version p := by rw [version, hbyte 0 (by norm_num)]; rfl
    have h6' : version (overwrite p i new) = 6 := hversion.trans h6
    have h4' : version (overwrite p i new) ≠ 4 := by omega
    have htransport : ipv6Transport (overwrite p i new) = ipv6Transport p := by
      simp only [ipv6Transport, h6, h6', hlen, not_lt.mpr h40, hbyte 6 (by norm_num), hskip, hskip']
    refine ⟨hlen, hversion, ?_, ?_, ?_, ?_, ?_⟩
    · simp only [srcAddr, if_neg h4, if_neg h4', if_pos h6, if_pos h6', hlen,
        slice_overwrite_of_disjoint h.fits (.inl (by omega : 24 ≤ i))]
    · simp only [pseudoHeaderDst, if_neg h4, if_neg h4', if_pos h6, if_pos h6', hlen, hbyte 6 (by norm_num),
        slice_overwrite_of_disjoint h.fits (.inl hi), hdst hwhole]
    · simp only [transportProtocol, if_neg h4, if_neg h4', if_pos h6, if_pos h6', htransport]
    · simp only [isFragment, if_neg h4, if_neg h4', if_pos h6, if_pos h6', hlen, hbyte 6 (by norm_num), hfrag]
    · simp only [transportRange, if_neg h4, if_neg h4', if_pos h6, if_pos h6', htransport, ipv6PayloadLen, hlen,
        be16_overwrite h.fits (by omega : 4 + 1 < i)]
      rfl

/-! ## The sums -/

def SameFamily : Octets → Octets → Prop
  | .v4 _, .v4 _ | .v6 _, .v6 _ => True
  | _, _ => False

theorem sameFamily {src dst : Octets} (hsrc : p.srcAddr = some src) (hdst : p.pseudoHeaderDst = some dst) :
    SameFamily src dst := by
  unfold srcAddr at hsrc
  unfold pseudoHeaderDst at hdst
  split_ifs at hsrc hdst
  all_goals
    cases hsrc
    cases hdst
    trivial

theorem compl_checksum (data : List UInt8) : 65535 - checksum data = fold (wordSum data) := by
  have h := fold_le (wordSum data)
  rw [checksum]
  omega

variable {proto : UInt8} {src dst : Octets} {pdu : List UInt8} {f len : ℕ}

theorem pseudoHeaderSum_eq (hproto : proto ≠ 0) (hfam : SameFamily src dst) (length : ℕ) :
    ∃ w, w ≠ 0 ∧ pseudoHeaderSum proto src dst length = fold w := by
  match src, dst, hfam with
  | .v4 src, .v4 dst, _ =>
    refine ⟨_, ?_, compl_checksum _⟩
    rw [ne_eq, wordSum_eq_zero]
    exact fun h => hproto (h proto (by simp))
  | .v6 src, .v6 dst, _ =>
    refine ⟨_, ?_, compl_checksum _⟩
    rw [ne_eq, wordSum_eq_zero]
    exact fun h => hproto (h proto (by simp))

theorem transportSum_eq (hproto : proto ≠ 0) (hfam : SameFamily src dst) (n : ℕ) :
    ∃ w, w ≠ 0 ∧ ∀ pdu : List UInt8, pdu.length = n → transportSum proto src dst pdu = fold (w + wordSum pdu) := by
  obtain ⟨w, hw, hsum⟩ := pseudoHeaderSum_eq hproto hfam (min n 65535)
  refine ⟨w, hw, fun pdu hn => ?_⟩
  rw [transportSum, combineChecksums, hn, hsum, compl_checksum, fold_fold_add, Nat.add_comm, fold_fold_add,
    Nat.add_comm]

theorem wordSum_setField (hf : Even f) (hfit : f + 2 ≤ pdu.length) {c : ℕ} (hc : c < 65536) :
    wordSum (overwrite pdu f (be16Bytes c)) = wordSum (overwrite pdu f (be16Bytes 0)) + c := by
  have hset : ∀ v < 65536, wordSum (overwrite pdu f (be16Bytes v)) + wordSum (slice pdu f (f + 2)) =
    wordSum pdu + v := by
    intro v hv
    have hsum := wordSum_overwrite hf (show f + (be16Bytes v).length ≤ pdu.length from hfit)
    rwa [wordSum_be16Bytes hv] at hsum
  have h := hset c hc
  have h0 := hset 0 (by norm_num)
  omega

theorem checksumFor_lt (proto : UInt8) (src dst : Octets) (pdu : List UInt8) :
    checksumFor proto src dst pdu < 65536 := by
  have hc := checksum_le pdu
  simp only [checksumFor, transportChecksum]
  split_ifs
  all_goals omega

/-- Data that holds the checksum computed for it verifies. -/
theorem transportSum_setField (hproto : proto ≠ 0) (hicmp : proto ≠ PROTO_ICMP) (hfam : SameFamily src dst)
    (hf : Even f) (hfit : f + 2 ≤ pdu.length) :
    transportSum proto src dst (overwrite pdu f (be16Bytes (checksumFor proto src dst
      (overwrite pdu f (be16Bytes 0))))) = 65535 := by
  obtain ⟨w, hw, hsum⟩ := transportSum_eq hproto hfam pdu.length
  have hc := checksumFor_lt proto src dst (overwrite pdu f (be16Bytes 0))
  rw [hsum _ (length_overwrite hfit), wordSum_setField hf hfit hc, fold_eq_ones]
  refine ⟨by omega, ?_⟩
  have hzero : (overwrite pdu f (be16Bytes 0)).length = pdu.length := length_overwrite hfit
  simp only [checksumFor, if_neg hicmp, transportChecksum, hsum _ hzero]
  have hcompl := compl_fold_add (w + wordSum (overwrite pdu f (be16Bytes 0)))
  split_ifs
  all_goals omega

theorem checksum_setField (hf : Even f) (hfit : f + 2 ≤ pdu.length) :
    checksum (overwrite pdu f (be16Bytes (checksumFor PROTO_ICMP src dst (overwrite pdu f (be16Bytes 0))))) =
      0 := by
  have hc := checksumFor_lt PROTO_ICMP src dst (overwrite pdu f (be16Bytes 0))
  have hudp : PROTO_ICMP ≠ PROTO_UDP := by decide
  rw [checksum_eq_zero, wordSum_setField hf hfit hc]
  simp only [checksumFor, if_true, hudp, false_and, if_false, checksum]
  have hcompl := compl_fold_add (wordSum (overwrite pdu f (be16Bytes 0)))
  have hle := fold_le (wordSum (overwrite pdu f (be16Bytes 0)))
  have hzero := fold_eq_zero (s := wordSum (overwrite pdu f (be16Bytes 0)))
  omega

theorem checksumFor_udp : checksumFor PROTO_UDP src dst pdu ≠ 0 := by
  have hsum : ∀ sum, (if PROTO_UDP = PROTO_UDP ∧ sum = 0 then 0xFFFF else sum) ≠ 0 := by
    intro sum
    split
    · decide
    · next h => exact fun hzero => h ⟨rfl, hzero⟩
  exact hsum _

theorem slice_overwrite {a e : ℕ} (h : a + f + new.length ≤ e) (he : e ≤ p.length) :
    slice (overwrite p (a + f) new) a e = overwrite (slice p a e) f new := by
  rw [slice, drop_overwrite (by omega) (by omega), Nat.add_sub_cancel_left, take_overwrite (by omega)
    (by simp; omega)]
  rfl

theorem slice_overwrite_self (h : f + new.length ≤ pdu.length) :
    slice (overwrite pdu f new) f (f + new.length) = new := by
  have hlen : (pdu.take f).length = f := by
    rw [List.length_take]
    omega
  rw [overwrite, List.append_assoc, slice_skip hlen.le, hlen, Nat.sub_self,
    Nat.add_sub_cancel_left, slice_head rfl]

theorem be16_overwrite_self (h : i + 2 ≤ p.length) {v : ℕ} (hv : v < 65536) :
    be16 (overwrite p i (be16Bytes v)) i = v := by
  have hfit : i + (be16Bytes v).length ≤ p.length := h
  simp only [be16, byte, getD_overwrite hfit, length_be16Bytes, le_refl, true_and,
    if_pos (show i ≤ i + 1 ∧ i + 1 < i + 2 by omega), if_pos (show i < i + 2 by omega), Nat.sub_self,
    Nat.add_sub_cancel_left]
  simp only [be16Bytes, List.getD_cons_zero, List.getD_cons_succ, UInt8.toNat_ofNat', Nat.reducePow]
  omega

theorem range_le : p.transportRange.2 ≤ p.length := by
  simp only [transportRange]
  split_ifs
  · exact Nat.zero_le _
  · dsimp only
    omega
  · exact Nat.zero_le _
  · exact min_le_right _ _
  · exact Nat.zero_le _

theorem covered_spec (hfield : checksumField proto = some f) (hroom : f + 2 ≤ pdu.length)
    (hcov : covered proto pdu = some len) : Even f ∧ f + 2 ≤ len ∧ len ≤ pdu.length := by
  unfold covered at hcov
  by_cases hudp : proto = PROTO_UDP
  · subst hudp
    obtain rfl : 6 = f := Option.some.inj hfield
    simp only [if_true, udpLen] at hcov
    split_ifs at hcov with _ hlen
    obtain rfl := Option.some.inj hcov
    exact ⟨by decide, hlen.1, hlen.2⟩
  · rw [if_neg hudp] at hcov
    obtain rfl := Option.some.inj hcov
    refine ⟨?_, hroom, le_rfl⟩
    unfold checksumField at hfield
    split_ifs at hfield
    all_goals
      obtain rfl := Option.some.inj hfield
      decide

theorem recompute_eq_some {q : Packet} (h : p.recomputeTransportChecksum = some q) :
    ∃ src dst f len, p.srcAddr = some src ∧ p.pseudoHeaderDst = some dst ∧
      checksumField p.transportProtocol = some f ∧ p.isFragment = false ∧
      covered p.transportProtocol p.transportPayload = some len ∧ f + 2 ≤ p.transportPayload.length ∧
      p.transportRange.1 + p.transportPayload.length = p.transportRange.2 ∧
      q = overwrite p (p.transportRange.1 + f) (be16Bytes (checksumFor p.transportProtocol src dst
        (overwrite (p.transportPayload.take len) f (be16Bytes 0)))) ∧
      SameHeaders p q := by
  simp only [recomputeTransportChecksum] at h
  split at h
  · next src dst f hsrc hdst hfield =>
    split_ifs at h with hfrag hroom
    split at h
    · cases h
    next len hcov =>
    obtain rfl := Option.some.inj h
    have hroom' := not_lt.mp hroom
    obtain ⟨-, hlen, hle⟩ := covered_spec hfield hroom' hcov
    have hstop := range_le (p := p)
    have hpayload : p.transportPayload.length = p.transportRange.2 - p.transportRange.1 := slice_length hstop
    have hbehind : ∀ v, Behind p (p.transportRange.1 + f) (be16Bytes v) := fun v =>
      { fits := by rw [length_be16Bytes]; omega
        upper := upper_of_checksumField (by rw [hfield]; rfl)
        whole := Bool.eq_false_iff.mpr hfrag
        nonempty := by omega
        start := Nat.le_add_right _ _ }
    have hzeroed : (p.setBe16 (p.transportRange.1 + f) 0).transportRange = p.transportRange :=
      (hbehind 0).same.range
    have hpdu : slice (p.setBe16 (p.transportRange.1 + f) 0) p.transportRange.1 (p.transportRange.1 + len) =
        overwrite (p.transportPayload.take len) f (be16Bytes 0) := by
      rw [setBe16, slice_overwrite (by rw [length_be16Bytes]; omega) (by omega)]
      rw [transportPayload, slice, slice, List.take_take, Nat.add_sub_cancel_left, min_eq_left (by omega)]
    have hq : ∀ v, (p.setBe16 (p.transportRange.1 + f) 0).setBe16
        ((p.setBe16 (p.transportRange.1 + f) 0).transportRange.1 + f) v =
          overwrite p (p.transportRange.1 + f) (be16Bytes v) := by
      intro v
      have hlen : (be16Bytes v).length = (be16Bytes 0).length := rfl
      rw [hzeroed]
      exact overwrite_overwrite (by rw [length_be16Bytes]; omega) hlen
    rw [hq, hpdu]
    exact ⟨src, dst, f, len, hsrc, hdst, hfield, Bool.eq_false_iff.mpr hfrag, hcov, hroom', by omega, rfl,
      (hbehind _).same⟩
  · cases h

/-- A field not too short for its protocol's header. -/
theorem verify_recomputed {q : Packet} (h : p.recomputeTransportChecksum = some q) :
    q.verifyTransportChecksum = some true ∨
      q.verifyTransportChecksum = none ∧ p.transportProtocol = PROTO_TCP ∧ q.transportPayload.length < 20 := by
  obtain ⟨src, dst, f, len, hsrc, hdst, hfield, hwhole, hcov, hroom, hrange, hq, hsame⟩ := recompute_eq_some h
  obtain ⟨heven, hlen, hle⟩ := covered_spec hfield hroom hcov
  have hfam := sameFamily hsrc hdst
  have hstop := range_le (p := p)
  generalize hc : checksumFor p.transportProtocol src dst
    (overwrite (p.transportPayload.take len) f (be16Bytes 0)) = c at hq
  have hpayload : q.transportPayload = overwrite p.transportPayload f (be16Bytes c) := by
    rw [transportPayload, hsame.range, hq, slice_overwrite (by rw [length_be16Bytes]; omega) hstop]
    rfl
  have hpayloadLen : q.transportPayload.length = p.transportPayload.length := by
    rw [hpayload]
    exact length_overwrite hroom
  have hpdu : q.transportPayload.take len = overwrite (p.transportPayload.take len) f (be16Bytes c) := by
    rw [hpayload]
    exact take_overwrite hlen hle
  have hfit : f + 2 ≤ (p.transportPayload.take len).length := by
    rw [List.length_take]
    omega
  have hne : p.transportProtocol ≠ 0 := by
    intro hzero
    rw [hzero] at hfield
    cases hfield
  have hsum : p.transportProtocol ≠ PROTO_ICMP →
      transportSum p.transportProtocol src dst (q.transportPayload.take len) = 65535 := by
    intro hicmp
    rw [hpdu, ← hc]
    exact transportSum_setField hne hicmp hfam heven hfit
  have hall : p.transportProtocol ≠ PROTO_UDP → q.transportPayload.take len = q.transportPayload := by
    intro hudp
    rw [covered, if_neg hudp] at hcov
    rw [← Option.some.inj hcov, ← hpayloadLen, List.take_length]
  simp only [verifyTransportChecksum, hsame.src, hsame.dst, hsame.proto, hsame.fragment, hwhole, hsrc, hdst,
    hsame.version, Bool.false_eq_true, if_false]
  unfold checksumField at hfield
  split_ifs at hfield with htcp hudp hicmp
  · have hudp : p.transportProtocol ≠ PROTO_UDP := by rw [htcp]; decide
    by_cases hshort : 20 ≤ q.transportPayload.length
    · rw [if_pos ⟨htcp, hshort⟩, ← hall hudp, hsum (by rw [htcp]; decide)]
      exact .inl rfl
    · refine .inr ⟨?_, htcp, not_le.mp hshort⟩
      rw [if_neg (fun hx => hshort hx.2), if_neg (fun hx => hudp hx.1),
        if_neg (by rw [htcp]; exact fun hx => absurd hx.1 (by decide)),
        if_neg (by rw [htcp]; exact fun hx => absurd hx.1 (by decide))]
  · obtain rfl : 6 = f := Option.some.inj hfield
    have hlong : 8 ≤ q.transportPayload.length := hpayloadLen.symm ▸ hroom
    have hset : slice q.transportPayload 6 8 ≠ [0, 0] := by
      have hself : slice (overwrite p.transportPayload 6 (be16Bytes c)) 6 8 = be16Bytes c :=
        slice_overwrite_self hroom
      rw [hpayload, hself]
      intro hzero
      have hsum := congrArg wordSum hzero
      rw [wordSum_be16Bytes (hc ▸ checksumFor_lt _ _ _ _)] at hsum
      rw [hudp] at hc
      exact checksumFor_udp (hc.trans hsum)
    have hudpLen : udpLen q.transportPayload = some len := by
      rw [covered, if_pos hudp] at hcov
      rw [← hcov]
      simp only [udpLen, hpayloadLen]
      rw [hpayload, be16_overwrite hroom (by norm_num)]
    rw [if_neg (fun hx => htcp hx.1), if_pos ⟨hudp, hlong⟩, if_neg (fun hx => hset hx.1), hudpLen]
    simp only [hsum (by rw [hudp]; decide)]
    exact .inl rfl
  · obtain rfl : 2 = f := Option.some.inj hfield
    have hlong : 4 ≤ q.transportPayload.length := hpayloadLen.symm ▸ hroom
    rw [if_neg (fun hx => htcp hx.1), if_neg (fun hx => hudp hx.1)]
    by_cases hv6 : p.transportProtocol = PROTO_ICMPV6
    · rw [if_pos ⟨hv6, hlong⟩, ← hall hudp, hsum (by rw [hv6]; decide)]
      exact .inl rfl
    · have hv4 := hicmp.resolve_right hv6
      rw [if_neg (fun hx => hv6 hx.1), if_pos ⟨hv4, hlong⟩, ← hall hudp, hpdu, ← hc, hv4,
        checksum_setField heven hfit]
      exact .inl rfl

/-! ## The final destination -/

def addresses (r : Packet) : List (List UInt8) :=
  (List.range ((r.length - 8) / 16)).map fun i => slice r (8 + 16 * i) (8 + 16 * i + 16)

/-- Where a packet with this Routing header ends up. Type 0 lists the path, types 2 and 4 have its end first;
what other types list is not known. -/
def finalDestination (dst : List UInt8) (r : Packet) : List UInt8 :=
  if r.byte 3 = 0 then dst
  else if r.byte 2 = 0 then r.addresses.getLast?.getD dst
  else if r.byte 2 = 2 ∨ r.byte 2 = 4 then r.addresses.head?.getD dst
  else dst

/-- Extension headers one after the other, the first of kind `nh` and the last followed by kind `nh'`, with
no Routing header among them. -/
def Linked : UInt8 → List Packet → UInt8 → Prop
  | nh, [], nh' => nh = nh'
  | nh, x :: xs, nh' =>
    (sized nh = true ∧ nh ≠ ROUTING ∧ x.length = x.extLen nh 0 ∨ nh = FRAGMENT ∧ x.length = 8) ∧
      Linked (x.byte 0) xs nh'

variable {pre x r : Packet} {xs : List Packet} {rest : List UInt8} {addr : List UInt8} {nh : UInt8} {j k n : ℕ}

theorem byte_append (hj : j < x.length) : byte (pre ++ (x ++ rest)) (pre.length + j) = byte x j := by
  simp [byte, List.getD_eq_getElem?_getD, List.getElem?_append_right, List.getElem?_append_left hj]

theorem extLen_append (hx : 2 ≤ x.length) : extLen (pre ++ (x ++ rest)) nh pre.length = extLen x nh 0 := by
  simp only [extLen, byte_append (show 1 < x.length by omega), Nat.zero_add]

theorem slice_append_left {a b : ℕ} (hb : b ≤ x.length) : slice (x ++ rest) a b = slice x a b := by
  rcases Nat.le_total a b with hab | hba
  · rw [slice, slice, List.drop_append_of_le_length (hab.trans hb), List.take_append_of_le_length]
    rw [List.length_drop]
    omega
  · rw [slice, slice, Nat.sub_eq_zero_of_le hba, List.take_zero, List.take_zero]

theorem addrAt_append (j : ℕ) : addrAt (pre ++ (r ++ rest)) pre.length r.length j = r.addresses[j]? := by
  simp only [addrAt, addresses, List.getElem?_map, List.length_append]
  by_cases hj : j < (r.length - 8) / 16
  · have hin : 8 + 16 * j + 16 ≤ r.length := by omega
    rw [if_neg (by omega), if_neg (by omega), List.getElem?_range hj, Option.map_some, slice_skip (by omega),
      slice_append_left (by omega)]
    congr 2
    all_goals omega
  · rw [if_pos (by omega), List.getElem?_eq_none (by simpa using hj), Option.map_none]

theorem routedTo_append (hr : r.length = extLen r ROUTING 0) :
    routedTo (pre ++ (r ++ rest)) pre.length addr = finalDestination addr r := by
  have hlen : 8 ≤ r.length := hr ▸ le_extLen r ROUTING 0
  have hsize : ((r.byte 1).toNat + 1) * 8 = r.length := by rw [hr, extLen_routing]
  have hcount : r.addresses.length = (r.length - 8) / 16 := by simp [addresses]
  simp only [routedTo, finalDestination, byte_append (show 1 < r.length by omega),
    byte_append (show 2 < r.length by omega),
    byte_append (show 3 < r.length by omega), hsize, addrAt_append]
  split
  · rfl
  · by_cases htype : r.byte 2 = 0
    · rw [if_pos htype, List.getLast?_eq_getElem?, hcount]
      by_cases hn : 0 < (r.length - 8) / 16
      · rw [if_pos ⟨htype, hn⟩]
      · have hnone : r.addresses[(r.length - 8) / 16 - 1]? = none := List.getElem?_eq_none (by omega)
        rw [if_neg (fun hx => hn hx.2), if_neg (by rw [htype]; decide), hnone]
    · rw [if_neg (fun hx => htype hx.1), if_neg htype, List.head?_eq_getElem?]
      split
      all_goals rfl

/-- The walk ends at the first Routing header, wherever it stands in the chain. -/
theorem finalDst_linked (hlinked : Linked nh xs ROUTING) (hr : r.length = extLen r ROUTING 0)
    (hk : xs.length < k) :
    finalDst (pre ++ (xs.flatten ++ (r ++ rest))) addr k nh pre.length = finalDestination addr r := by
  induction xs generalizing pre nh k with
  | nil =>
    obtain ⟨k, rfl⟩ := Nat.exists_eq_succ_of_ne_zero (Nat.ne_of_gt hk)
    have hnh : nh = ROUTING := hlinked
    have hlen : 8 ≤ r.length := hr ▸ le_extLen r ROUTING 0
    rw [List.flatten_nil, List.nil_append, finalDst, if_pos hnh, if_neg, routedTo_append hr]
    simp only [List.length_append]
    omega
  | cons x xs ih =>
    obtain ⟨k, rfl⟩ := Nat.exists_eq_succ_of_ne_zero (Nat.ne_of_gt (Nat.zero_lt_of_lt hk))
    obtain ⟨hx, hrest⟩ := hlinked
    have hk' : xs.length < k := Nat.lt_of_succ_lt_succ hk
    have hnext : finalDst (pre ++ x ++ (xs.flatten ++ (r ++ rest))) addr k (x.byte 0) (pre ++ x).length =
        finalDestination addr r := ih hrest hk'
    rw [List.length_append, List.append_assoc] at hnext
    rw [List.flatten_cons, List.append_assoc, finalDst]
    have hlen : 8 ≤ x.length := by
      rcases hx with ⟨-, -, hx⟩ | ⟨-, hx⟩
      · exact hx ▸ le_extLen x nh 0
      · exact hx.ge
    have hbyte : byte (pre ++ (x ++ (xs.flatten ++ (r ++ rest)))) pre.length = byte x 0 :=
      byte_append (j := 0) (by omega)
    have htotal : pre.length + 8 ≤ (pre ++ (x ++ (xs.flatten ++ (r ++ rest)))).length := by
      simp only [List.length_append]
      omega
    rcases hx with ⟨hs, hne, hx⟩ | ⟨rfl, hx⟩
    · rw [if_neg hne, if_pos hs, if_neg (by omega), extLen_append (by omega), ← hx, hbyte]
      exact hnext
    · rw [if_neg (by decide), if_neg (by decide), if_pos rfl, if_neg (by omega), ← hx, hbyte]
      exact hnext

/-! ## Recomputing -/

/-- A UDP datagram without data, over IPv4. -/
def emptyUdp : Packet := [0x45, 0, 0, 28, 0, 0, 0, 0, 64, 17, 0, 0, 10, 0, 0, 1, 10, 0, 0, 2, 0, 1,
    0, 2, 0, 8, 0, 0]

/-- An IPv6 packet with some Routing headers before a UDP datagram. -/
def routed (routes : List UInt8) : Packet :=
  [0x60, 0, 0, 0, 0, UInt8.ofNat (routes.length + 8), 43, 64] ++ List.replicate 16 1 ++ List.replicate
    16 2 ++ routes ++
    [0, 1, 0, 2, 0, 8, 0, 0]

/-- A Routing header that was followed to its end and, after it in the chain, one that was not. -/
def secondRoute : Packet := routed ([43, 0, 0, 0, 0, 0, 0, 0] ++
    ([17, 2, 0, 1, 0, 0, 0, 0] ++ List.replicate 16 3))

/-- A Routing header of type 3 that lists one address, not compressed. -/
def rplRoute : Packet := routed ([17, 2, 3, 1, 0, 0, 0, 0] ++ List.replicate 16 3)

end Packet

end PktKit
