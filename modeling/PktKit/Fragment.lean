import PktKit.Packet
import PktKit.Foundations.Tilings

/-! # Fragmentation

An IPv4 packet too large for the next hop is split into packets that are not.
-/

namespace PktKit
open Foundations Foundations.Tilings

def MIN_IPV4_MTU : ℕ := 68

/-- The largest offset the header can carry, in bytes. -/
def MAX_FRAGMENT_OFFSET : ℕ := 0x1FFF * 8

inductive Fragmentation
  | fits
  | fragments (parts : List Packet)
  | dontFragment
  | notFragmentable
deriving DecidableEq

def copiedOptions (opts : List UInt8) : List UInt8 :=
  match opts with
  | [] => []
  | kind :: rest =>
    if kind = 0 then []
    else if kind = 1 then copiedOptions rest
    else
      match rest with
      | [] => []
      | len :: body =>
        if _h : len.toNat < 2 ∨ (kind :: len :: body).length < len.toNat then []
        else
          (if kind &&& 0x80 ≠ 0 then (kind :: len :: body).take len.toNat else []) ++
            copiedOptions ((kind :: len :: body).drop len.toNat)
termination_by opts.length
decreasing_by
  · simp
  · simp only [List.length_cons, List.length_drop] at _h ⊢
    omega

/-- The header of the later fragments, whole words long. -/
def copiedOptionsHeader (header : List UInt8) : List UInt8 :=
  if header.length ≤ 20 then header
  else
    let out := header.take 20 ++ copiedOptions (header.drop 20)
    out ++ List.replicate ((4 - out.length % 4) % 4) 0

/-- How a packet is cut: its header and that of the later fragments, and how much data fits behind each. -/
structure Cutter where
  header : List UInt8
  laterHeader : List UInt8
  firstRoom : ℕ
  laterRoom : ℕ
  firstRoom_pos : 0 < firstRoom
  laterRoom_pos : 0 < laterRoom
  baseOffset : ℕ
  lastHasMore : Bool

namespace Cutter

def room (c : Cutter) (pos : ℕ) : ℕ := if pos = 0 then c.firstRoom else c.laterRoom

theorem room_pos (c : Cutter) (pos : ℕ) : 0 < c.room pos := by
  unfold room
  split
  · exact c.firstRoom_pos
  · exact c.laterRoom_pos

def piece (c : Cutter) (pos : ℕ) (data : List UInt8) (more : Bool) : Packet :=
  let header := if pos = 0 then c.header else c.laterHeader
  let frag : Packet := header ++ data
  let frag := if pos = 0 then frag else frag.setByte 0 (0x40 ||| UInt8.ofNat (c.laterHeader.length / 4))
  ((((frag.setIpv4TotalLen (header.length + data.length)).setIpv4FragmentOffset
    (c.baseOffset + pos)).setIpv4MoreFragments more).setIpv4DontFragment false).recomputeIpv4Checksum

/-- Cut what is left, `rest`, from `pos` on; `none` if an offset does not fit. -/
def cut (c : Cutter) (pos : ℕ) (rest : List UInt8) : Option (List Packet) :=
  if _h : rest = [] then some []
  else
    let take := min (c.room pos) rest.length
    if MAX_FRAGMENT_OFFSET < c.baseOffset + pos then none
    else
      let more := take < rest.length ∨ c.lastHasMore
      (c.cut (pos + take) (rest.drop take)).map (c.piece pos (rest.take take) more :: ·)
termination_by rest.length
decreasing_by
  have hrest := List.length_pos_of_ne_nil _h
  have hroom := c.room_pos pos
  simp only [List.length_drop]
  omega

end Cutter

def fragmentIpv4 (p : Packet) (mtu : ℕ) : Fragmentation :=
  let hl := p.ipv4HeaderLen
  let total := p.ipv4TotalLen
  if p.version ≠ 4 ∨ hl < 20 ∨ total < hl ∨ p.length < total then .notFragmentable
  else if total ≤ mtu then .fits
  else if p.ipv4DontFragment then .dontFragment
  else
    let laterHeader := copiedOptionsHeader (p.take hl)
    let laterHl := laterHeader.length
    if mtu < MIN_IPV4_MTU ∨ mtu ≤ hl ∨ mtu ≤ laterHl then .notFragmentable
    else
      let firstRoom := (mtu - hl) / 8 * 8
      let laterRoom := (mtu - laterHl) / 8 * 8
      if h : firstRoom = 0 ∨ laterRoom = 0 then .notFragmentable
      else
        let c : Cutter :=
          { header := p.take hl, laterHeader, firstRoom, laterRoom
            firstRoom_pos := by omega
            laterRoom_pos := by omega
            baseOffset := p.ipv4FragmentOffset
            lastHasMore := p.ipv4MoreFragments }
        match c.cut 0 (slice p hl total) with
        | none => .notFragmentable
        | some parts => .fragments parts

/-! ## What a fragment is -/

namespace Ipv4Header

variable {x : Ipv4Header} {opts data : List UInt8}

def ofPiece (x : Ipv4Header) (versionIhl : UInt8) (len offset : ℕ) (more : Bool) : Ipv4Header :=
  let flags := (x.flags₁.toNat * 256 + x.flags₂.toNat) / 8192 * 8192 + offset / 8 % 8192
  let high := UInt8.ofNat (flags / 256)
  { x with
    versionIhl
    len₁ := UInt8.ofNat (len / 256)
    len₂ := UInt8.ofNat len
    flags₁ := (if more then high ||| 0x20 else high &&& 0xDF) &&& 0xBF
    flags₂ := UInt8.ofNat flags }

/-- The first byte of a header with these options. -/
structure Sized (versionIhl : UInt8) (opts : List UInt8) : Prop where
  version : versionIhl.toNat / 16 = 4
  length : versionIhl.toNat % 16 * 4 = 20 + opts.length

theorem recompute_eq (h : Sized x.versionIhl opts) :
    Packet.recomputeIpv4Checksum (x.bytes ++ opts ++ data) = (x.filled opts).bytes ++ opts ++ data := by
  have hversion : Packet.version (x.bytes ++ opts ++ data) = 4 := h.version
  have hlen : Packet.ipv4HeaderLen (x.bytes ++ opts ++ data) = (x.bytes ++ opts).length := by
    rw [List.length_append, length_bytes]
    exact h.length
  have htake : (Packet.setBe16 (x.bytes ++ opts ++ data) 10 0).take (x.bytes ++ opts).length =
      (x.withCsum 0).bytes ++ opts := by
    rw [show Packet.setBe16 (x.bytes ++ opts ++ data) 10 0 = ((x.withCsum 0).bytes ++ opts) ++ data from rfl,
      List.take_left' (by simp)]
  rw [Packet.recomputeIpv4Checksum, if_neg (not_not.mpr hversion)]
  simp only [hlen]
  rw [if_neg (by simp), htake]
  rfl

end Ipv4Header

namespace Cutter

variable {c : Cutter} {x : Ipv4Header} {opts data : List UInt8} {pos : ℕ} {more : Bool}

/-- The first byte of a fragment's header. -/
def versionIhl (c : Cutter) (x : Ipv4Header) (pos : ℕ) : UInt8 :=
  if pos = 0 then x.versionIhl else 0x40 ||| UInt8.ofNat (c.laterHeader.length / 4)

theorem piece_eq (hx : (if pos = 0 then c.header else c.laterHeader) = x.bytes ++ opts)
    (hsized : Ipv4Header.Sized (c.versionIhl x pos) opts) :
    c.piece pos data more =
      ((x.ofPiece (c.versionIhl x pos) (20 + opts.length + data.length) (c.baseOffset + pos)
        more).filled opts).bytes ++
        opts ++ data := by
  rw [← Ipv4Header.recompute_eq hsized, piece]
  simp only [hx, List.length_append, Ipv4Header.length_bytes, versionIhl]
  split <;> rfl

end Cutter

/-! ## Fields of a fragment -/

namespace Ipv4Header

variable {x : Ipv4Header} {opts data : List UInt8} {v : UInt8} {len offset : ℕ} {more : Bool}

def fragment (x : Ipv4Header) (opts data : List UInt8) (v : UInt8) (offset : ℕ) (more : Bool) : Packet :=
  ((x.ofPiece v (20 + opts.length + data.length) offset more).filled opts).bytes ++ opts ++ data

theorem flag_bits (high : UInt8) (more : Bool) :
    let b := (if more then high ||| 0x20 else high &&& 0xDF) &&& 0xBF
    (b &&& 0x20 != 0) = more ∧ (b &&& 0x40 != 0) = false ∧ b.toNat % 32 = high.toNat % 32 := by
  revert high more
  rw [UInt8.forall_iff]
  decide +kernel

section Fields

variable (x opts data v offset more)

@[simp] theorem length_fragment : (x.fragment opts data v offset more).length =
    20 + opts.length + data.length := by
  simp only [fragment, List.length_append, length_bytes]

@[simp] theorem moreFragments_fragment : (x.fragment opts data v offset more).ipv4MoreFragments = more :=
  (flag_bits _ more).1

@[simp] theorem dontFragment_fragment : (x.fragment opts data v offset more).ipv4DontFragment = false :=
  (flag_bits _ more).2.1

theorem drop_fragment : (x.fragment opts data v offset more).drop (20 + opts.length) = data := by
  rw [fragment, List.drop_left' (by simp)]

theorem take_fragment : (x.fragment opts data v offset more).take (20 + opts.length) =
    ((x.ofPiece v (20 + opts.length + data.length) offset more).filled opts).bytes ++ opts := by
  rw [fragment, List.take_left' (by simp)]

end Fields

theorem headerLen_fragment (h : Sized v opts) :
    (x.fragment opts data v offset more).ipv4HeaderLen = 20 + opts.length := h.length

theorem totalLen_fragment (h : 20 + opts.length + data.length < 65536) :
    (x.fragment opts data v offset more).ipv4TotalLen = 20 + opts.length + data.length := by
  change (UInt8.ofNat _).toNat * 256 + (UInt8.ofNat _).toNat = _
  simp only [UInt8.toNat_ofNat', Nat.reducePow]
  omega

theorem offset_fragment (h8 : 8 ∣ offset) (h : offset ≤ MAX_FRAGMENT_OFFSET) :
    (x.fragment opts data v offset more).ipv4FragmentOffset = offset := by
  generalize hflags : (x.flags₁.toNat * 256 + x.flags₂.toNat) / 8192 * 8192 + offset / 8 % 8192 = flags
  have hlow : ((x.fragment opts data v offset more).byte 6).toNat % 32 =
    (UInt8.ofNat (flags / 256)).toNat % 32 := by
    rw [← hflags]
    exact (flag_bits _ more).2.2
  have hbyte : (x.fragment opts data v offset more).byte 7 = UInt8.ofNat flags := by
    rw [← hflags]
    rfl
  have h1 := x.flags₁.toNat_lt
  have h2 := x.flags₂.toNat_lt
  rw [Packet.ipv4FragmentOffset, Packet.be16, hbyte]
  simp only [UInt8.toNat_ofNat', Nat.reducePow, MAX_FRAGMENT_OFFSET] at hlow h ⊢
  omega

theorem checksum_fragment (h : Sized v opts) :
    checksum ((x.fragment opts data v offset more).take (x.fragment opts data v offset more).ipv4HeaderLen) =
      0 := by
  rw [headerLen_fragment h, take_fragment, checksum_filled]

end Ipv4Header

/-! ## The chunks of the data -/

namespace Cutter

variable {c : Cutter} {pos : ℕ} {rest : List UInt8}

def chunks (c : Cutter) (pos : ℕ) (rest : List UInt8) : List (ℕ × List UInt8) :=
  if _h : rest = [] then []
  else
    let take := min (c.room pos) rest.length
    (pos, rest.take take) :: c.chunks (pos + take) (rest.drop take)
termination_by rest.length
decreasing_by
  have hrest := List.length_pos_of_ne_nil _h
  have hroom := c.room_pos pos
  simp only [List.length_drop]
  omega

theorem chunks_cons (h : rest ≠ []) : c.chunks pos rest = (pos, rest.take (min (c.room pos) rest.length)) ::
    c.chunks (pos + min (c.room pos) rest.length) (rest.drop (min (c.room pos) rest.length)) := by
  rw [chunks, dif_neg h]

theorem cut_eq_some {parts : List Packet} (h : c.cut pos rest = some parts) :
    parts = (c.chunks pos rest).map (fun k =>
        c.piece k.1 k.2 (k.1 + k.2.length < pos + rest.length ∨ c.lastHasMore)) ∧
      ∀ k ∈ c.chunks pos rest, c.baseOffset + k.1 ≤ MAX_FRAGMENT_OFFSET := by
  fun_induction Cutter.cut c pos rest generalizing parts with
  | case1 pos => simp_all [chunks]
  | case2 pos rest hrest hmax => simp at h
  | case3 pos rest hrest take hmax =>
    rename_i ih
    obtain ⟨ps, hps, rfl⟩ := Option.map_eq_some_iff.mp h
    obtain ⟨rfl, hall⟩ := ih hps
    have htake : take ≤ rest.length := min_le_right _ _
    have hend : pos + take + (rest.drop take).length = pos + rest.length := by
      rw [List.length_drop]
      omega
    have hlt : (pos + (rest.take take).length < pos + rest.length) = (take < rest.length) := by
      rw [List.length_take, min_eq_left htake, Nat.add_lt_add_iff_left]
    have hchunks : c.chunks pos rest = (pos, rest.take take) :: c.chunks (pos + take) (rest.drop take) :=
      chunks_cons hrest
    rw [hchunks, hend]
    refine ⟨?_, ?_⟩
    · simp only [List.map_cons, hlt]
      rfl
    · rintro k hk
      rcases List.mem_cons.mp hk with rfl | hk
      · exact not_lt.mp hmax
      · exact hall k hk

theorem exists_cut (h : ∀ k ∈ c.chunks pos rest, c.baseOffset + k.1 ≤ MAX_FRAGMENT_OFFSET) :
    ∃ parts, c.cut pos rest = some parts := by
  fun_induction Cutter.cut c pos rest with
  | case1 pos => exact ⟨[], rfl⟩
  | case2 pos rest hrest hmax =>
    rw [chunks_cons hrest] at h
    exact absurd (h _ List.mem_cons_self) (not_le.mpr hmax)
  | case3 pos rest hrest take hmax =>
    rename_i ih
    rw [chunks_cons hrest] at h
    obtain ⟨parts, hparts⟩ := ih fun k hk => h k (List.mem_cons_of_mem _ hk)
    exact ⟨_, by rw [hparts]; rfl⟩

/-- How much can go behind the first fragment in `n` more. -/
theorem length_chunks_le {n : ℕ} (hpos : pos ≠ 0) :
    (c.chunks pos rest).length ≤ n ↔ rest.length ≤ n * c.laterRoom := by
  fun_induction Cutter.chunks c pos rest generalizing n with
  | case1 pos => simp
  | case2 pos rest hrest take =>
    rename_i ih
    have hlen := List.length_pos_of_ne_nil hrest
    have hroom : c.room pos = c.laterRoom := by rw [room, if_neg hpos]
    have htake : take = min c.laterRoom rest.length := by rw [← hroom]
    have := c.laterRoom_pos
    cases n with
    | zero =>
      simp only [List.length_cons, Nat.zero_mul]
      omega
    | succ n =>
      rw [List.length_cons, Nat.add_le_add_iff_right, ih (by omega), List.length_drop, Nat.succ_mul]
      omega

theorem chunks_tiles : Tiles Prod.fst (fun k : ℕ × List UInt8 => k.1 + k.2.length) pos (c.chunks pos rest)
    (pos + rest.length) := by
  fun_induction Cutter.chunks c pos rest with
  | case1 pos => simp
  | case2 pos rest hrest take ih =>
    have htake : take ≤ rest.length := min_le_right _ _
    have hpos : 0 < take := lt_min (c.room_pos pos) (List.length_pos_of_ne_nil hrest)
    rw [List.length_drop, show pos + take + (rest.length - take) = pos + rest.length by omega] at ih
    rw [tiles_cons, List.length_take, min_eq_left htake]
    exact ⟨rfl, by omega, ih⟩

/-- The chunks of some data lie end to end. -/
theorem tiles (c : Cutter) (data : List UInt8) :
    Tiles Prod.fst (fun k : ℕ × List UInt8 => k.1 + k.2.length) 0 (c.chunks 0 data) data.length := by
  have h : Tiles _ _ 0 (c.chunks 0 data) (0 + data.length) := chunks_tiles
  rwa [Nat.zero_add] at h

theorem chunks_dropLast : ∀ k ∈ (c.chunks pos rest).dropLast, k.2.length = c.room k.1 := by
  fun_induction Cutter.chunks c pos rest with
  | case1 pos => simp
  | case2 pos rest hrest take ih =>
    intro k hk
    by_cases hnil : c.chunks (pos + take) (rest.drop take) = []
    · simp [hnil] at hk
    · rw [List.dropLast_cons_of_ne_nil hnil, List.mem_cons] at hk
      rcases hk with rfl | hk
      · -- something is left, so the fragment was full
        have hleft : rest.drop take ≠ [] := fun h => hnil (by rw [h, chunks, dif_pos rfl])
        have hlt : take < rest.length := by
          by_contra hge
          exact hleft (List.drop_eq_nil_of_le (not_lt.mp hge))
        have : take = c.room pos := by omega
        simp [this]
        omega
      · exact ih k hk

theorem chunks_le_room : ∀ k ∈ c.chunks pos rest, k.2.length ≤ c.room k.1 := by
  fun_induction Cutter.chunks c pos rest with
  | case1 pos => simp
  | case2 pos rest hrest take ih =>
    rintro k hk
    rcases List.mem_cons.mp hk with rfl | hk
    · exact (List.length_take_le _ _).trans (min_le_left _ _)
    · exact ih k hk

theorem chunks_frag : ∀ k ∈ c.chunks pos rest, pos ≤ k.1 ∧ k.2 <+: rest.drop (k.1 - pos) := by
  fun_induction Cutter.chunks c pos rest with
  | case1 pos => simp
  | case2 pos rest hrest take ih =>
    rintro k hk
    rcases List.mem_cons.mp hk with rfl | hk
    · simpa using List.take_prefix take rest
    · obtain ⟨hle, hpre⟩ := ih k hk
      rw [List.drop_drop, show take + (k.1 - (pos + take)) = k.1 - pos by omega] at hpre
      exact ⟨by omega, hpre⟩

end Cutter

/-! ## The header of the later fragments -/

theorem copiedOptions_length_le (opts : List UInt8) : (copiedOptions opts).length ≤ opts.length := by
  fun_induction copiedOptions opts with
  | case1 => simp
  | case2 rest => simp
  | case3 rest kind ih => simp only [List.length_cons]; omega
  | case4 kind hend hnop => simp
  | case5 kind hend hnop len body h => simp
  | case6 kind hend hnop len body h ih =>
    rw [List.length_drop] at ih
    have hlen : len.toNat ≤ (kind :: len :: body).length := by omega
    rw [List.length_append]
    split
    · rw [List.length_take, min_eq_left hlen]
      omega
    · simp only [List.length_nil]
      omega

section Later

variable {x : Ipv4Header} {opts : List UInt8}

/-- Later fragments keep the fixed part of the header, and no more options than there were. -/
theorem exists_copiedOptionsHeader (h4 : 4 ∣ opts.length) :
    ∃ later, copiedOptionsHeader (x.bytes ++ opts) = x.bytes ++ later ∧ later.length ≤ opts.length ∧
      4 ∣ later.length := by
  unfold copiedOptionsHeader
  split
  · exact ⟨opts, rfl, le_rfl, h4⟩
  · have hle := copiedOptions_length_le opts
    refine ⟨copiedOptions opts ++ List.replicate ((4 - (20 + (copiedOptions opts).length) % 4) % 4) 0, ?_, ?_, ?_⟩
    · have htake : (x.bytes ++ opts).take 20 = x.bytes := List.take_left' rfl
      have hdrop : (x.bytes ++ opts).drop 20 = opts := List.drop_left' rfl
      simp only [htake, hdrop, List.length_append, Ipv4Header.length_bytes, List.append_assoc]
    · rw [List.length_append, List.length_replicate]
      omega
    · rw [List.length_append, List.length_replicate]
      omega

theorem sized_later {later : List UInt8} (h4 : 4 ∣ later.length) (hle : later.length ≤ 40) :
    Ipv4Header.Sized (0x40 ||| UInt8.ofNat ((20 + later.length) / 4)) later := by
  obtain ⟨n, hn⟩ := h4
  have hbound : n ≤ 10 := by omega
  have h : ∀ n ≤ 10, (0x40 ||| UInt8.ofNat ((20 + 4 * n) / 4)).toNat / 16 = 4 ∧
      (0x40 ||| UInt8.ofNat ((20 + 4 * n) / 4)).toNat % 16 * 4 = 20 + 4 * n := by decide +kernel
  rw [hn]
  exact ⟨(h n hbound).1, hn ▸ (h n hbound).2⟩

end Later

/-! ## What is cut -/

structure Cutter.For (c : Cutter) (p : Packet) (mtu : ℕ) (x : Ipv4Header)
    (opts later data : List UInt8) : Prop where
  packet : p.take p.ipv4TotalLen = x.bytes ++ opts ++ data
  total : p.ipv4TotalLen = 20 + opts.length + data.length
  le_length : p.ipv4TotalLen ≤ p.length
  headerLen : p.ipv4HeaderLen = 20 + opts.length
  header : c.header = x.bytes ++ opts
  laterHeader : c.laterHeader = x.bytes ++ later
  sized : Ipv4Header.Sized x.versionIhl opts
  laterSized : Ipv4Header.Sized (0x40 ||| UInt8.ofNat ((20 + later.length) / 4)) later
  later_le : later.length ≤ opts.length
  firstRoom : c.firstRoom = (mtu - (20 + opts.length)) / 8 * 8
  laterRoom : c.laterRoom = (mtu - (20 + later.length)) / 8 * 8
  minMtu : MIN_IPV4_MTU ≤ mtu
  mtu_lt : mtu < p.ipv4TotalLen
  baseOffset : c.baseOffset = p.ipv4FragmentOffset
  lastHasMore : c.lastHasMore = p.ipv4MoreFragments
  dontFragment : p.ipv4DontFragment = false

theorem Packet.headerLen_le (p : Packet) : p.ipv4HeaderLen ≤ 60 := by
  have := (p.byte 0).toNat_lt
  rw [ipv4HeaderLen]
  omega

structure Cutter.Cuts (c : Cutter) (p : Packet) (mtu : ℕ) : Prop where
  version : p.version = 4
  headerLen_ge : 20 ≤ p.ipv4HeaderLen
  headerLen_le : p.ipv4HeaderLen ≤ p.ipv4TotalLen
  totalLen_le : p.ipv4TotalLen ≤ p.length
  mtu_lt : mtu < p.ipv4TotalLen
  dontFragment : p.ipv4DontFragment = false
  minMtu : MIN_IPV4_MTU ≤ mtu
  header_lt : p.ipv4HeaderLen < mtu
  later_lt : (copiedOptionsHeader (p.take p.ipv4HeaderLen)).length < mtu
  header : c.header = p.take p.ipv4HeaderLen
  laterHeader : c.laterHeader = copiedOptionsHeader (p.take p.ipv4HeaderLen)
  firstRoom : c.firstRoom = (mtu - p.ipv4HeaderLen) / 8 * 8
  laterRoom : c.laterRoom = (mtu - (copiedOptionsHeader (p.take p.ipv4HeaderLen)).length) / 8 * 8
  baseOffset : c.baseOffset = p.ipv4FragmentOffset
  lastHasMore : c.lastHasMore = p.ipv4MoreFragments

theorem fragmentIpv4_eq_fragments {p : Packet} {mtu : ℕ} {parts : List Packet} :
    fragmentIpv4 p mtu = .fragments parts ↔
      ∃ c : Cutter, c.Cuts p mtu ∧ c.cut 0 (slice p p.ipv4HeaderLen p.ipv4TotalLen) = some parts := by
  constructor
  · intro h
    rw [fragmentIpv4] at h
    by_cases hwf : p.version ≠ 4 ∨ p.ipv4HeaderLen < 20 ∨ p.ipv4TotalLen < p.ipv4HeaderLen ∨
      p.length < p.ipv4TotalLen
    · simp [hwf] at h
    by_cases hfits : p.ipv4TotalLen ≤ mtu
    · simp [hwf, hfits] at h
    by_cases hdf : p.ipv4DontFragment = true
    · simp [hwf, hfits, hdf] at h
    simp only [hwf, hfits, hdf, Bool.false_eq_true, if_false] at h
    split at h
    · cases h
    next hsmall =>
    split at h
    · cases h
    next hroom =>
    split at h
    · cases h
    next hcut =>
    cases h
    push Not at hwf hsmall
    exact ⟨_, ⟨hwf.1, hwf.2.1, hwf.2.2.1, hwf.2.2.2, not_le.mp hfits, Bool.eq_false_iff.mpr hdf,
      hsmall.1, hsmall.2.1,
      hsmall.2.2, rfl, rfl, rfl, rfl, rfl, rfl⟩, hcut⟩
  · rintro ⟨⟨header, laterHeader, firstRoom, laterRoom, hfirst, hlater, baseOffset, lastHasMore⟩, hc, hcut⟩
    obtain ⟨h1, h2, h3, h4, h5, h6, h7, h8, h9, rfl, rfl, rfl, rfl, rfl, rfl⟩ := hc
    simp only [fragmentIpv4, h1, h6, hcut, ne_eq, not_true_eq_false, Bool.false_eq_true, if_false, hfirst.ne',
      hlater.ne', or_self, dif_neg, not_false_eq_true, not_lt.mpr h2, not_lt.mpr h3, not_lt.mpr h4, not_le.mpr h5,
      not_lt.mpr h7, not_le.mpr h8, not_le.mpr h9]

theorem Cutter.Cuts.exists_for {c : Cutter} {p : Packet} {mtu : ℕ} (hc : c.Cuts p mtu) :
    ∃ x opts later, c.For p mtu x opts later (slice p p.ipv4HeaderLen p.ipv4TotalLen) := by
  have htotal := hc.headerLen_le
  have hlen := hc.totalLen_le
  have hp20 : 20 ≤ (p.take p.ipv4HeaderLen).length := by
    have := hc.headerLen_ge
    rw [List.length_take]
    omega
  obtain ⟨x, opts, hx⟩ := Packet.exists_header hp20
  have hopts : p.ipv4HeaderLen = 20 + opts.length := by
    have := congrArg List.length hx
    rw [List.length_take, List.length_append, Ipv4Header.length_bytes] at this
    omega
  have hbyte : p.byte 0 = x.versionIhl := by
    have := congrArg (fun l => l.getD 0 0) hx
    rw [List.getD_eq_getElem?_getD, List.getElem?_take_of_lt (by omega)] at this
    rw [Packet.byte, List.getD_eq_getElem?_getD, this]
    rfl
  have hsized : Ipv4Header.Sized x.versionIhl opts := by
    constructor
    · rw [← hbyte]
      exact hc.version
    · rw [← hbyte, ← hopts]
      rfl
  have hbound := p.headerLen_le
  have h4 : 4 ∣ opts.length := by
    have := hsized.length
    omega
  obtain ⟨later, hlater, hle, hlater4⟩ := exists_copiedOptionsHeader (x := x) h4
  have hlaterHeader : c.laterHeader = x.bytes ++ later := by rw [hc.laterHeader, hx, hlater]
  have hlaterLen : (copiedOptionsHeader (p.take p.ipv4HeaderLen)).length = 20 + later.length := by
    rw [hx, hlater, List.length_append, Ipv4Header.length_bytes]
  have hdata : (slice p p.ipv4HeaderLen p.ipv4TotalLen).length = p.ipv4TotalLen - p.ipv4HeaderLen :=
    slice_length hlen
  refine ⟨x, opts, later, {
    packet := ?_
    total := by omega
    le_length := hlen
    headerLen := hopts
    header := hc.header.trans hx
    laterHeader := hlaterHeader
    sized := hsized
    laterSized := sized_later hlater4 (by omega)
    later_le := hle
    firstRoom := by rw [hc.firstRoom, hopts]
    laterRoom := by rw [hc.laterRoom, hlaterLen]
    minMtu := hc.minMtu
    mtu_lt := hc.mtu_lt
    baseOffset := hc.baseOffset
    lastHasMore := hc.lastHasMore
    dontFragment := hc.dontFragment }⟩
  rw [← hx, slice, ← List.take_add, Nat.add_sub_cancel' htotal]

/-- A packet that is cut is well formed and too large. -/
theorem exists_cutter {p : Packet} {mtu : ℕ} {parts : List Packet} (h : fragmentIpv4 p mtu = .fragments parts) :
    ∃ c x opts later data, Cutter.For c p mtu x opts later data ∧ c.cut 0 data = some parts := by
  obtain ⟨c, hc, hcut⟩ := fragmentIpv4_eq_fragments.mp h
  obtain ⟨x, opts, later, hfor⟩ := hc.exists_for
  exact ⟨c, x, opts, later, _, hfor, hcut⟩

namespace Cutter

variable {c : Cutter} {p : Packet} {mtu pos : ℕ} {x : Ipv4Header}
  {opts later data rest d : List UInt8} {more : Bool}

theorem dvd_of_mem_chunks (hfirst : 8 ∣ c.firstRoom) (hlater : 8 ∣ c.laterRoom) (hpos : 8 ∣ pos) :
    ∀ k ∈ c.chunks pos rest, 8 ∣ k.1 := by
  fun_induction Cutter.chunks c pos rest with
  | case1 pos => simp
  | case2 pos rest hrest take ih =>
    rintro k hk
    rcases List.mem_cons.mp hk with rfl | hk
    · exact hpos
    · have hleft : rest.drop take ≠ [] := fun h => by
        rw [h, chunks, dif_pos rfl] at hk
        cases hk
      have hlt : take < rest.length := by
        by_contra hge
        exact hleft (List.drop_eq_nil_of_le (not_lt.mp hge))
      have hroom : take = c.room pos := by omega
      refine ih (hpos.add (hroom ▸ ?_)) k hk
      unfold room
      split
      · exact hfirst
      · exact hlater

/-- The options behind the fixed part of a fragment's header. -/
def optsAt (opts later : List UInt8) (pos : ℕ) : List UInt8 := if pos = 0 then opts else later

namespace For

variable (h : c.For p mtu x opts later data)
include h

theorem sizedAt (pos : ℕ) : Ipv4Header.Sized (c.versionIhl x pos) (optsAt opts later pos) := by
  unfold versionIhl optsAt
  split
  · exact h.sized
  · rw [h.laterHeader, List.length_append, Ipv4Header.length_bytes]
    exact h.laterSized

theorem piece_eq : c.piece pos d more =
    x.fragment (optsAt opts later pos) d (c.versionIhl x pos) (c.baseOffset + pos) more := by
  refine Cutter.piece_eq ?_ (h.sizedAt pos)
  unfold optsAt
  split
  · exact h.header
  · exact h.laterHeader

theorem opts_le : opts.length ≤ 40 := by
  have := h.sized.length
  omega

theorem room_eq : c.room pos = (mtu - (20 + (optsAt opts later pos).length)) / 8 * 8 := by
  unfold room optsAt
  split
  · exact h.firstRoom
  · exact h.laterRoom

theorem header_lt (pos : ℕ) : 20 + (optsAt opts later pos).length < mtu := by
  have := h.opts_le
  have := h.later_le
  have := h.minMtu
  unfold optsAt MIN_IPV4_MTU at *
  split <;> omega

theorem dvd_fst : ∀ k ∈ c.chunks 0 data, 8 ∣ k.1 :=
  dvd_of_mem_chunks (h.firstRoom ▸ Dvd.intro_left _ rfl) (h.laterRoom ▸ Dvd.intro_left _ rfl) (dvd_zero 8)

theorem dvd_baseOffset : 8 ∣ c.baseOffset := h.baseOffset ▸ Dvd.intro_left _ rfl

theorem chunk_le {k : ℕ × List UInt8} (hk : k ∈ c.chunks 0 data) :
    20 + (optsAt opts later k.1).length + k.2.length ≤ mtu := by
  have hle := chunks_le_room k hk
  have := h.header_lt k.1
  rw [h.room_eq] at hle
  omega

theorem mtu_lt_65536 : mtu < 65536 := h.mtu_lt.trans (Packet.be16_lt (i := 2))

end For

end Cutter

/-! ## What the fragments are -/

def Packet.payload (p : Packet) : List UInt8 := p.drop p.ipv4HeaderLen

namespace Cutter.For

variable {c : Cutter} {p : Packet} {mtu : ℕ} {x : Ipv4Header} {opts later data : List UInt8} {parts : List Packet}

def fragmentAt (c : Cutter) (x : Ipv4Header) (opts later data : List UInt8) (k : ℕ × List UInt8) : Packet :=
  x.fragment (optsAt opts later k.1) k.2 (c.versionIhl x k.1) (c.baseOffset + k.1)
    (k.1 + k.2.length < data.length ∨ c.lastHasMore)

theorem parts_eq (h : c.For p mtu x opts later data) (hcut : c.cut 0 data = some parts) :
    parts = (c.chunks 0 data).map (fragmentAt c x opts later data) := by
  rw [(cut_eq_some hcut).1]
  refine List.map_congr_left fun k _ => ?_
  rw [h.piece_eq, fragmentAt, Nat.zero_add]

theorem length_fragmentAt {k : ℕ × List UInt8} :
    (fragmentAt c x opts later data k).length = 20 + (optsAt opts later k.1).length + k.2.length :=
  Ipv4Header.length_fragment ..

section FragmentAt

variable (h : c.For p mtu x opts later data) {k : ℕ × List UInt8}
include h

theorem payload_fragmentAt : (fragmentAt c x opts later data k).payload = k.2 := by
  rw [Packet.payload, fragmentAt, Ipv4Header.headerLen_fragment (h.sizedAt k.1), Ipv4Header.drop_fragment]

theorem totalLen_fragmentAt (hk : k ∈ c.chunks 0 data) :
    (fragmentAt c x opts later data k).ipv4TotalLen = (fragmentAt c x opts later data k).length := by
  rw [length_fragmentAt, fragmentAt, Ipv4Header.totalLen_fragment ((h.chunk_le hk).trans_lt h.mtu_lt_65536)]

theorem offset_fragmentAt (hcut : c.cut 0 data = some parts) (hk : k ∈ c.chunks 0 data) :
    (fragmentAt c x opts later data k).ipv4FragmentOffset = c.baseOffset + k.1 :=
  Ipv4Header.offset_fragment (h.dvd_baseOffset.add (h.dvd_fst k hk)) ((cut_eq_some hcut).2 k hk)

end FragmentAt

end Cutter.For

section Fragments

variable {p : Packet} {mtu : ℕ} {parts : List Packet}

theorem fragment_fits (h : fragmentIpv4 p mtu = .fragments parts) :
    ∀ q ∈ parts, q.length ≤ mtu ∧ q.ipv4TotalLen = q.length ∧ checksum (q.take q.ipv4HeaderLen) = 0 := by
  obtain ⟨c, x, opts, later, data, hc, hcut⟩ := exists_cutter h
  rw [hc.parts_eq hcut]
  intro q hq
  obtain ⟨k, hk, rfl⟩ := List.mem_map.mp hq
  exact ⟨Cutter.For.length_fragmentAt.trans_le (hc.chunk_le hk), hc.totalLen_fragmentAt hk,
    Ipv4Header.checksum_fragment (hc.sizedAt k.1)⟩

/-- Fragments lie end to end from the packet's own offset. -/
theorem fragment_tiles (h : fragmentIpv4 p mtu = .fragments parts) :
    Tiles Packet.ipv4FragmentOffset (fun q => q.ipv4FragmentOffset + q.payload.length) p.ipv4FragmentOffset parts
      (p.ipv4FragmentOffset + (p.ipv4TotalLen - p.ipv4HeaderLen)) := by
  obtain ⟨c, x, opts, later, data, hc, hcut⟩ := exists_cutter h
  have hlen : p.ipv4TotalLen - p.ipv4HeaderLen = data.length := by
    rw [hc.total, hc.headerLen]
    omega
  rw [hc.parts_eq hcut, hlen, ← hc.baseOffset, ← Nat.add_zero c.baseOffset]
  refine (c.tiles data).map_add (fun k hk => hc.offset_fragmentAt hcut hk) fun k hk => ?_
  rw [hc.offset_fragmentAt hcut hk, hc.payload_fragmentAt, Nat.add_assoc]

/-- All but the last carry whole units of eight bytes, and say that more follow. -/
theorem fragment_dropLast (h : fragmentIpv4 p mtu = .fragments parts) :
    ∀ q ∈ parts.dropLast, 8 ∣ q.payload.length ∧ q.ipv4MoreFragments = true := by
  obtain ⟨c, x, opts, later, data, hc, hcut⟩ := exists_cutter h
  rw [hc.parts_eq hcut, ← List.map_dropLast]
  intro q hq
  obtain ⟨k, hk, rfl⟩ := List.mem_map.mp hq
  refine ⟨?_, ?_⟩
  · rw [hc.payload_fragmentAt, Cutter.chunks_dropLast k hk, hc.room_eq]
    exact Dvd.intro_left _ rfl
  · have hlt := (c.tiles data).stop_lt hk
    simp [Cutter.For.fragmentAt, hlt]

theorem fragment_getLast (h : fragmentIpv4 p mtu = .fragments parts) :
    ∀ q ∈ parts.getLast?, q.ipv4MoreFragments = p.ipv4MoreFragments := by
  obtain ⟨c, x, opts, later, data, hc, hcut⟩ := exists_cutter h
  rw [hc.parts_eq hcut, List.getLast?_map]
  intro q hq
  obtain ⟨k, hk, rfl⟩ := Option.map_eq_some_iff.mp hq
  have hend := (c.tiles data).stop_getLast hk
  simp [Cutter.For.fragmentAt, hend, hc.lastHasMore]

end Fragments

end PktKit
