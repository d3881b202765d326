import PktKit.Foundations.OnesComplement

/-! # IPv4 packets

Packets as their bytes: the header fields, the Internet checksum and its incremental updates, and the
checksums of the transport headers.
-/

namespace PktKit
open Foundations

abbrev Packet := List UInt8

/-- A 16-bit number, most significant byte first. -/
def be16Bytes (v : ℕ) : List UInt8 := [UInt8.ofNat (v / 256), UInt8.ofNat v]

def be32Bytes (v : ℕ) : List UInt8 := be16Bytes (v / 65536) ++ be16Bytes v

namespace Packet

def byte (p : Packet) (i : ℕ) : UInt8 := p.getD i 0

def be16 (p : Packet) (i : ℕ) : ℕ := (p.byte i).toNat * 256 + (p.byte (i + 1)).toNat

def be32 (p : Packet) (i : ℕ) : ℕ := p.be16 i * 65536 + p.be16 (i + 2)

/-! ## Header fields -/

def version (p : Packet) : ℕ := (p.byte 0).toNat / 16

def ipv4HeaderLen (p : Packet) : ℕ := (p.byte 0).toNat % 16 * 4

def ipv4TotalLen (p : Packet) : ℕ := p.be16 2

def ipv4DontFragment (p : Packet) : Bool := p.byte 6 &&& 0x40 != 0

def ipv4MoreFragments (p : Packet) : Bool := p.byte 6 &&& 0x20 != 0

/-- The offset of the payload within its datagram, in bytes. -/
def ipv4FragmentOffset (p : Packet) : ℕ := p.be16 6 % 8192 * 8

def setByte (p : Packet) (i : ℕ) (b : UInt8) : Packet := overwrite p i [b]

def setBe16 (p : Packet) (i v : ℕ) : Packet := overwrite p i (be16Bytes v)

def setIpv4TotalLen (p : Packet) (len : ℕ) : Packet := p.setBe16 2 len

/-- The flags stay; the offset counts units of eight bytes. -/
def setIpv4FragmentOffset (p : Packet) (bytes : ℕ) : Packet :=
  p.setBe16 6 (p.be16 6 / 8192 * 8192 + bytes / 8 % 8192)

def setIpv4MoreFragments (p : Packet) (on : Bool) : Packet :=
  p.setByte 6 (if on then p.byte 6 ||| 0x20 else p.byte 6 &&& 0xDF)

def setIpv4DontFragment (p : Packet) (on : Bool) : Packet :=
  p.setByte 6 (if on then p.byte 6 ||| 0x40 else p.byte 6 &&& 0xBF)

end Packet

/-! ## Checksums -/

def checksum (data : List UInt8) : ℕ := 65535 - fold (wordSum data)

def combineChecksums (a b : ℕ) : ℕ := fold (a + b)

def pseudoHeaderChecksum (proto : UInt8) (src dst : List UInt8) (length : ℕ) : ℕ :=
  65535 - checksum (src ++ dst ++ [0, proto] ++ be16Bytes length)

def onesComplementWords : List UInt8 → ℕ
  | [] => 0
  | [a] => 65535 - a.toNat * 256
  | a :: b :: l => 65535 - (a.toNat * 256 + b.toNat) + onesComplementWords l

def incrementalUpdate (oldChecksum : ℕ) (old new : List UInt8) : ℕ :=
  65535 - fold (65535 - oldChecksum + onesComplementWords old + wordSum new)

def PROTO_ICMP : UInt8 := 1
def PROTO_TCP : UInt8 := 6
def PROTO_UDP : UInt8 := 17

namespace Packet

def recomputeIpv4Checksum (p : Packet) : Packet :=
  if p.version ≠ 4 then p
  else
    let hl := p.ipv4HeaderLen
    if hl < 20 ∨ p.length < hl then p
    else
      let p := p.setBe16 10 0
      p.setBe16 10 (checksum (p.take hl))

def src (p : Packet) : List UInt8 := slice p 12 16
def dst (p : Packet) : List UInt8 := slice p 16 20

end Packet

/-! ## Bytes and numbers -/

section Numbers

theorem UInt8.forall_iff {P : UInt8 → Prop} : (∀ b, P b) ↔ ∀ n < 256, P (UInt8.ofNat n) :=
  ⟨fun h _ _ => h _, fun h b => by simpa using h b.toNat b.toNat_lt⟩

@[simp] theorem length_be16Bytes (v : ℕ) : (be16Bytes v).length = 2 := rfl

theorem wordSum_be16Bytes {v : ℕ} (h : v < 65536) : wordSum (be16Bytes v) = v := by
  simp only [be16Bytes, wordSum, UInt8.toNat_ofNat', Nat.reducePow]
  omega

variable {p : Packet} {i : ℕ}

theorem Packet.be16_lt : p.be16 i < 65536 := by
  have h := (p.byte i).toNat_lt
  have h' := (p.byte (i + 1)).toNat_lt
  simp only [Packet.be16]
  omega

theorem be16Bytes_eq {a b : UInt8} {v : ℕ} (h : a.toNat * 256 + b.toNat = v) : be16Bytes v = [a, b] := by
  have ha := a.toNat_lt
  have hb := b.toNat_lt
  subst h
  simp only [be16Bytes, List.cons.injEq, and_true]
  constructor <;> apply UInt8.toNat_inj.mp <;> simp only [UInt8.toNat_ofNat', Nat.reducePow] <;> omega

theorem be16_be16Bytes {pre post : List UInt8} {v i : ℕ} (hi : pre.length = i) (hv : v < 65536) :
    Packet.be16 (pre ++ (be16Bytes v ++ post)) i = v := by
  subst hi
  simp only [Packet.be16, Packet.byte, be16Bytes, List.getD_eq_getElem?_getD]
  rw [List.getElem?_append_right le_rfl, List.getElem?_append_right (Nat.le_add_right _ 1)]
  simp only [Nat.sub_self, Nat.add_sub_cancel_left, List.cons_append, List.nil_append, List.getElem?_cons_zero,
    List.getElem?_cons_succ, Option.getD_some, UInt8.toNat_ofNat', Nat.reducePow]
  omega

theorem checksum_le (data : List UInt8) : checksum data ≤ 65535 := Nat.sub_le _ _

theorem checksum_eq_zero {data : List UInt8} : checksum data = 0 ↔ wordSum data ≠ 0 ∧
    wordSum data % 65535 = 0 := by
  rw [← fold_eq_ones, checksum]
  have := fold_le (wordSum data)
  omega

end Numbers

/-! ## The fixed part of a header -/

structure Ipv4Header where
  (versionIhl tos len₁ len₂ id₁ id₂ flags₁ flags₂ ttl proto csum₁ csum₂ : UInt8)
  (src₁ src₂ src₃ src₄ dst₁ dst₂ dst₃ dst₄ : UInt8)

namespace Ipv4Header

def bytes (x : Ipv4Header) : List UInt8 :=
  [x.versionIhl, x.tos, x.len₁, x.len₂, x.id₁, x.id₂, x.flags₁, x.flags₂, x.ttl, x.proto, x.csum₁, x.csum₂,
    x.src₁, x.src₂, x.src₃, x.src₄, x.dst₁, x.dst₂, x.dst₃, x.dst₄]

@[simp] theorem length_bytes (x : Ipv4Header) : x.bytes.length = 20 := rfl

def withCsum (x : Ipv4Header) (v : ℕ) : Ipv4Header := { x with csum₁ := UInt8.ofNat (v / 256), csum₂ := UInt8.ofNat v }

theorem wordSum_append (x : Ipv4Header) (opts : List UInt8) :
    wordSum (x.bytes ++ opts) = wordSum x.bytes + wordSum opts :=
      Foundations.wordSum_append (by rw [length_bytes]; decide) opts

theorem wordSum_withCsum (x : Ipv4Header) {v : ℕ} (hv : v < 65536) :
    wordSum (x.withCsum v).bytes = wordSum (x.withCsum 0).bytes + v := by
  simp only [bytes, withCsum, wordSum, UInt8.toNat_ofNat', Nat.reducePow, Nat.zero_div, Nat.zero_mod]
  omega

def filled (x : Ipv4Header) (opts : List UInt8) : Ipv4Header :=
  x.withCsum (checksum ((x.withCsum 0).bytes ++ opts))

theorem checksum_filled (x : Ipv4Header) (opts : List UInt8) : checksum ((x.filled opts).bytes ++ opts) = 0 := by
  rw [checksum_eq_zero, wordSum_append, filled, wordSum_withCsum _ (Nat.lt_succ_of_le (checksum_le _)), checksum]
  have h := compl_fold_add (wordSum ((x.withCsum 0).bytes ++ opts))
  have hzero := fold_eq_zero (s := wordSum ((x.withCsum 0).bytes ++ opts))
  rw [wordSum_append] at h hzero ⊢
  omega

end Ipv4Header

theorem Packet.exists_header {p : Packet} (h : 20 ≤ p.length) :
    ∃ (x : Ipv4Header) (rest : List UInt8), p = x.bytes ++ rest := by
  refine ⟨⟨p.byte 0, p.byte 1, p.byte 2, p.byte 3, p.byte 4, p.byte 5, p.byte 6, p.byte 7, p.byte 8, p.byte 9,
    p.byte 10, p.byte 11, p.byte 12, p.byte 13, p.byte 14, p.byte 15, p.byte 16, p.byte 17, p.byte 18, p.byte 19⟩,
    p.drop 20, ?_⟩
  have htake : p.take 20 = (List.range 20).map p.byte := by
    refine List.ext_getElem (by simp [h]) fun i hi _ => ?_
    simp only [List.length_take] at hi
    simp [Packet.byte, List.getElem?_eq_getElem (show i < p.length by omega)]
  conv_lhs => rw [← List.take_append_drop 20 p, htake]
  rfl

end PktKit
