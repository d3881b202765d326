import PktKit.Nat44.Defrag
import PktKit.Foundations.Fragments

/-! # Fragments reassemble

The fragments of a packet, in any order, are put together to that packet.
-/

namespace PktKit.Nat44
open Foundations Foundations.Tilings Cutter.For

/-! ## Copying fragments to their places -/

/-- Copying pieces of some data to their places gives the data where they cover it. -/
theorem foldl_overwrite {data : List UInt8} {fs : List FragData} {out : List UInt8}
    (hout : out.length = data.length)
    (hfs : ∀ f ∈ fs, f.stop ≤ data.length ∧ f.data <+: data.drop f.offset)
    (hcover : ∀ j < data.length, (∃ f ∈ fs, f.offset ≤ j ∧ j < f.stop) ∨ out.getD j 0 = data.getD j 0) :
    fs.foldl (fun out f => overwrite out f.offset (f.data.take (min f.stop data.length - f.offset)))
      out = data := by
  induction fs generalizing out with
  | nil =>
    rw [List.foldl_nil]
    refine List.ext_getElem hout fun j hj hj' => ?_
    have := (hcover j hj').resolve_left (by simp)
    rwa [List.getD_eq_getElem _ _ hj, List.getD_eq_getElem _ _ hj'] at this
  | cons f fs ih =>
    obtain ⟨hstop, hpre⟩ := hfs f List.mem_cons_self
    have hdata : f.data.take (min f.stop data.length - f.offset) = f.data := by
      rw [min_eq_left hstop, FragData.stop, Nat.add_sub_cancel_left, List.take_length]
    have hfit : f.offset + f.data.length ≤ out.length := hout ▸ hstop
    rw [List.foldl_cons, hdata]
    refine ih (by rw [length_overwrite hfit, hout]) (fun g hg => hfs g (List.mem_cons_of_mem f hg)) fun j hj => ?_
    rw [getD_overwrite hfit]
    by_cases hin : f.offset ≤ j ∧ j < f.offset + f.data.length
    · right
      obtain ⟨t, ht⟩ := hpre
      have hget := congrArg (fun l => l.getD (j - f.offset) 0) ht
      simp only [List.getD_eq_getElem?_getD, List.getElem?_drop, Nat.add_sub_cancel' hin.1] at hget
      rw [if_pos hin, List.getD_eq_getElem?_getD, List.getD_eq_getElem?_getD, ← hget,
        List.getElem?_append_left (by omega)]
    · rw [if_neg hin]
      refine (hcover j hj).imp_left ?_
      rintro ⟨g, hg, hgj⟩
      rcases List.mem_cons.mp hg with rfl | hg
      · exact absurd hgj hin
      · exact ⟨g, hg, hgj⟩

/-! ## Fragments of one datagram -/

/-- A whole packet that is cut: no fragment itself, and with the checksum its header has. -/
structure Whole (c : Cutter) (p : Packet) (mtu : ℕ) (x : Ipv4Header) (opts later data : List UInt8) : Prop
    extends c.For p mtu x opts later data where
  length_eq : p.length = p.ipv4TotalLen
  flags₁ : x.flags₁ = 0
  flags₂ : x.flags₂ = 0
  filled : x.filled opts = x

section Datagram

variable {c : Cutter} {p : Packet} {mtu zone now : ℕ} {x : Ipv4Header} {opts later data : List UInt8}
  {parts : List Packet} {k : ℕ × List UInt8} {d : Defragger}

def keyOf (zone : ℕ) (x : Ipv4Header) : FragKey :=
  ⟨zone, [x.src₁, x.src₂, x.src₃, x.src₄], [x.dst₁, x.dst₂, x.dst₃, x.dst₄],
    x.id₁.toNat * 256 + x.id₂.toNat, x.proto⟩

def fragOf (c : Cutter) (x : Ipv4Header) (opts later data : List UInt8) (k : ℕ × List UInt8) : FragData :=
  ⟨k.1, k.2, if k.1 = 0 then some ((fragmentAt c x opts later data k).take (20 + opts.length)) else none⟩

@[simp] theorem fragOf_offset : (fragOf c x opts later data k).offset = k.1 := rfl
@[simp] theorem fragOf_data : (fragOf c x opts later data k).data = k.2 := rfl
@[simp] theorem fragOf_stop : (fragOf c x opts later data k).stop = k.1 + k.2.length := rfl

theorem bounds (hk : k ∈ c.chunks 0 data) : 0 < k.2.length ∧ k.1 + k.2.length ≤ data.length := by
  have := (c.tiles data).mem_bounds hk
  omega

namespace Whole

variable (h : Whole c p mtu x opts later data)
include h

theorem packet_eq : p = x.bytes ++ opts ++ data := by
  rw [← h.packet, ← h.length_eq, List.take_length]

theorem baseOffset_eq : c.baseOffset = 0 := by
  rw [h.baseOffset, h.packet_eq]
  change (x.flags₁.toNat * 256 + x.flags₂.toNat) % 8192 * 8 = 0
  rw [h.flags₁, h.flags₂]
  rfl

theorem lastHasMore_eq : c.lastHasMore = false := by
  rw [h.lastHasMore, h.packet_eq]
  change (x.flags₁ &&& 0x20 != 0) = false
  rw [h.flags₁]
  rfl

theorem data_length_lt : 20 + opts.length + data.length < 65536 := h.total ▸ Packet.be16_lt (i := 2)

theorem data_ne_nil : data ≠ [] := by
  rintro rfl
  have hlt := h.mtu_lt
  have := h.header_lt 0
  rw [h.total] at hlt
  simp [Cutter.optsAt] at this hlt
  omega

theorem firstRoom_lt : c.firstRoom < data.length := by
  have hlt := h.mtu_lt
  have := h.header_lt 0
  rw [h.total] at hlt
  rw [h.firstRoom]
  simp only [Cutter.optsAt, if_true] at this
  omega

theorem dvd_length (hk : k ∈ c.chunks 0 data) (hlt : k.1 + k.2.length < data.length) : 8 ∣ k.2.length := by
  have hne : c.chunks 0 data ≠ [] := List.ne_nil_of_mem hk
  have hlast : k ∈ (c.chunks 0 data).dropLast := by
    rw [← List.dropLast_concat_getLast hne] at hk
    refine (List.mem_append.mp hk).resolve_right fun hk => ?_
    have hend := (c.tiles data).stop_getLast (List.getLast?_eq_some_getLast hne)
    rw [← List.mem_singleton.mp hk] at hend
    omega
  rw [Cutter.chunks_dropLast k hlast, h.room_eq]
  exact Dvd.intro_left _ rfl

theorem moreFragments_fragmentAt :
    (fragmentAt c x opts later data k).ipv4MoreFragments = decide (k.1 + k.2.length < data.length) := by
  simp [fragmentAt, h.lastHasMore_eq]

theorem reassembleAt_fragment (hcut : c.cut 0 data = some parts) (hk : k ∈ c.chunks 0 data) :
    d.reassembleAt zone (fragmentAt c x opts later data k) now =
      d.accept (keyOf zone x) (fragOf c x opts later data k) (k.1 + k.2.length < data.length) false
        (fragmentAt c x opts later data k).length x.tos now := by
  have hbounds := bounds hk
  have hlen : (fragmentAt c x opts later data k).length = 20 +
    (Cutter.optsAt opts later k.1).length + k.2.length :=
    length_fragmentAt
  have htotal := h.totalLen_fragmentAt hk
  have hoff := h.offset_fragmentAt hcut hk
  have hhl : (fragmentAt c x opts later data k).ipv4HeaderLen = 20 + (Cutter.optsAt opts later k.1).length :=
    Ipv4Header.headerLen_fragment (h.sizedAt k.1)
  have hmf := h.moreFragments_fragmentAt (k := k)
  have hdf : (fragmentAt c x opts later data k).ipv4DontFragment = false := by simp [fragmentAt]
  have hpayload : slice (fragmentAt c x opts later data k) (20 + (Cutter.optsAt opts later k.1).length)
      (fragmentAt c x opts later data k).length = k.2 := by
    rw [slice, ← hhl, ← Packet.payload, h.payload_fragmentAt, hlen, hhl, List.take_of_length_le (by omega)]
  rw [h.baseOffset_eq, Nat.zero_add] at hoff
  have hle : (Cutter.optsAt opts later k.1).length ≤ opts.length := by
    have := h.later_le
    unfold Cutter.optsAt
    split <;> omega
  have hdata := h.data_length_lt
  -- it is a fragment: the first one has more to follow
  have hfrag : ¬ ((!decide (k.1 + k.2.length < data.length)) = true ∧ k.1 = 0) := by
    rintro ⟨hlast, hzero⟩
    have hroom := Cutter.chunks_le_room k hk
    rw [Cutter.room, if_pos hzero] at hroom
    have := h.firstRoom_lt
    simp only [Bool.not_eq_true', decide_eq_false_iff_not] at hlast
    omega
  have hwhole : ¬ ((decide (k.1 + k.2.length < data.length) = true ∧ k.2.length % 8 ≠ 0) ∨ k.2 = [] ∨
      65535 < 20 + (Cutter.optsAt opts later k.1).length + (k.1 + k.2.length)) := by
    rintro (⟨hlt, hmod⟩ | hnil | hlong)
    · exact hmod (Nat.mod_eq_zero_of_dvd (h.dvd_length hk (by simpa using hlt)))
    · simp [hnil] at hbounds
    · omega
  rw [Defragger.reassembleAt, if_neg (by omega)]
  simp only [hmf, hoff, hhl, htotal, hpayload, hdf]
  rw [if_neg hfrag, if_neg (by omega), if_neg hwhole]
  have hhdr : (if k.1 = 0 then some ((fragmentAt c x opts later data k).take
    (20 + (Cutter.optsAt opts later k.1).length))
      else none) = (fragOf c x opts later data k).hdr := by
    rw [fragOf]
    split
    · next hzero => rw [Cutter.optsAt, if_pos hzero]
    · rfl
  rw [hhdr]
  rfl

end Whole

end Datagram

/-! ## What is held while fragments arrive -/

section Held

variable {c : Cutter} {p : Packet} {mtu zone now : ℕ} {x : Ipv4Header} {opts later data : List UInt8}
  {parts : List Packet} {k : ℕ × List UInt8} {got rest : List (ℕ × List UInt8)} {e : FragEntry}

/-- An entry holds the fragments of the chunks `got`. -/
structure Held (c : Cutter) (x : Ipv4Header) (opts later data : List UInt8) (got : List (ℕ × List UInt8))
    (e : FragEntry) : Prop where
  frags : e.frags.Perm (got.map (fragOf c x opts later data))
  sorted : Sorted e.frags
  total : e.total = if ∃ k ∈ got, k.1 + k.2.length = data.length then some data.length else none
  covered : e.covered = (got.map (·.2.length)).sum
  ecn : e.ecn = if got = [] then (0 : UInt8) else (1 : UInt8) <<< (x.tos &&& 3)
  charge : e.charge = (got.map fun k => (fragOf c x opts later data k).charge).sum
  maxSize : e.maxSize = (got.map fun k => (fragmentAt c x opts later data k).length).foldl max 0
  maxDfSize : e.maxDfSize = 0

theorem held_new : Held c x opts later data [] { created := now } where
  frags := .nil
  sorted := .nil
  total := by simp
  covered := rfl
  ecn := rfl
  charge := rfl
  maxSize := rfl
  maxDfSize := rfl

theorem disjoint_of_perm (hperm : (got ++ k :: rest).Perm (c.chunks 0 data)) :
    ∀ g ∈ got, g.1 + g.2.length ≤ k.1 ∨ k.1 + k.2.length ≤ g.1 := by
  have hpair : (c.chunks 0 data).Pairwise fun a b => a.1 + a.2.length ≤ b.1 ∨ b.1 + b.2.length ≤ a.1 :=
    (c.tiles data).pairwise.imp fun h => .inl h
  rw [← hperm.pairwise_iff fun h => h.symm] at hpair
  obtain ⟨-, -, hcross⟩ := List.pairwise_append.mp hpair
  exact fun g hg => hcross g hg k List.mem_cons_self

namespace Held

variable (he : Held c x opts later data got e)
include he

theorem mem_chunk (hperm : (got ++ k :: rest).Perm (c.chunks 0 data)) {f : FragData} (hf : f ∈ e.frags) :
    ∃ g ∈ got, g ∈ c.chunks 0 data ∧ f = fragOf c x opts later data g := by
  obtain ⟨g, hg, rfl⟩ := List.mem_map.mp (he.frags.subset hf)
  exact ⟨g, hg, hperm.subset (List.mem_append_left _ hg), rfl⟩

theorem pos (hperm : (got ++ k :: rest).Perm (c.chunks 0 data)) :
    ∀ f ∈ e.frags, f.offset < f.stop := fun f hf => by
  obtain ⟨g, -, hg, rfl⟩ := he.mem_chunk hperm hf
  have := (bounds hg).1
  simp only [fragOf_offset, fragOf_stop]
  omega

theorem disjoint (hperm : (got ++ k :: rest).Perm (c.chunks 0 data)) :
    ∀ f ∈ e.frags, f.stop ≤ (fragOf c x opts later data k).offset ∨
      (fragOf c x opts later data k).stop ≤ f.offset :=
  fun f hf => by
    obtain ⟨g, hg, -, rfl⟩ := he.mem_chunk hperm hf
    exact disjoint_of_perm hperm g hg

theorem noteEnd (hk : k.1 + k.2.length ≤ data.length) :
    e.noteEnd (k.1 + k.2.length < data.length) (k.1 + k.2.length) =
      some { e with total := if ∃ g ∈ got ++ [k], g.1 + g.2.length = data.length then some data.length else none } := by
  unfold FragEntry.noteEnd
  by_cases hlt : k.1 + k.2.length < data.length
  · have hsame : (∃ g ∈ got ++ [k], g.1 + g.2.length = data.length) ↔ ∃ g ∈ got, g.1 + g.2.length =
      data.length := by
      simp only [List.mem_append, List.mem_singleton, or_and_right, exists_or, exists_eq_left]
      exact or_iff_left hlt.ne
    simp only [hlt, decide_true, if_true, hsame, ← he.total]
  · have heq : k.1 + k.2.length = data.length := by omega
    have hex : ∃ g ∈ got ++ [k], g.1 + g.2.length = data.length := ⟨k, by simp, heq⟩
    have hany : ¬ e.total.any (· ≠ data.length) = true := by
      rw [he.total]
      split <;> simp
    simp only [heq, lt_irrefl, decide_false, Bool.false_eq_true, if_false, if_neg hany, if_pos hex]

/-- The entry with the end noted takes the fragment. -/
theorem insert (hperm : (got ++ k :: rest).Perm (c.chunks 0 data)) :
    Held c x opts later data (got ++ [k])
      ({ e with total := if ∃ g ∈ got ++ [k], g.1 + g.2.length = data.length then some data.length else none }.insert
        (fragOf c x opts later data k) (fragmentAt c x opts later data k).length false x.tos) := by
  have hk := hperm.subset (List.mem_append_right _ List.mem_cons_self)
  have hbounds := bounds hk
  refine ⟨?_, ?_, rfl, ?_, ?_, ?_, ?_, he.maxDfSize⟩
  · have hsplit : (e.frags.takeWhile (·.offset < k.1) ++ e.frags.dropWhile (·.offset < k.1)).Perm
        (got.map (fragOf c x opts later data)) := by
      rw [List.takeWhile_append_dropWhile]
      exact he.frags
    simp only [FragEntry.insert, FragEntry.split, List.span_eq_takeWhile_dropWhile, List.map_append, List.map_cons,
      List.map_nil, fragOf_offset]
    exact List.perm_middle.trans ((hsplit.cons _).trans (List.perm_append_singleton _ _).symm)
  · simp only [FragEntry.insert, FragEntry.split, List.span_eq_takeWhile_dropWhile]
    exact he.sorted.insert (he.pos hperm) (he.disjoint hperm) (by simp only [fragOf_offset, fragOf_stop]; omega)
  · simp [FragEntry.insert, FragEntry.split, he.covered]
  · have hor : ∀ b : UInt8, b ||| b = b := fun b => by simp
    simp only [FragEntry.insert, FragEntry.split, he.ecn]
    split <;> simp [hor]
  · simp [FragEntry.insert, FragEntry.split, he.charge]
  · simp [FragEntry.insert, FragEntry.split, he.maxSize]

theorem not_overlaps (hperm : (got ++ k :: rest).Perm (c.chunks 0 data)) {total : Option ℕ} :
    { e with total }.overlaps (fragOf c x opts later data k) = false := by
  have hk := hperm.subset (List.mem_append_right _ List.mem_cons_self)
  have hbounds := bounds hk
  refine (FragEntry.overlaps_eq_false he.sorted (he.pos hperm) ?_).mpr (he.disjoint hperm)
  rw [fragOf_offset, fragOf_stop]
  omega

theorem not_pastEnd (hperm : (got ++ k :: rest).Perm (c.chunks 0 data)) {q : Prop} [Decidable q] :
    { e with total := if q then some data.length else none }.pastEnd (k.1 + k.2.length) = false := by
  have hk := hperm.subset (List.mem_append_right _ List.mem_cons_self)
  have hbounds := bounds hk
  unfold FragEntry.pastEnd
  split
  · simp only [Option.any_some, Bool.or_eq_false_iff, decide_eq_false_iff_not, Option.any_eq_false]
    refine ⟨by omega, fun f hf => ?_⟩
    obtain ⟨g, -, hg, rfl⟩ := he.mem_chunk hperm (List.mem_of_getLast? hf)
    have := (bounds hg).2
    simp only [fragOf_stop]
    omega
  · rfl

end Held

end Held

/-! ## The datagram put together -/

section Complete

variable {c : Cutter} {p : Packet} {mtu zone now : ℕ} {x : Ipv4Header} {opts later data : List UInt8}
  {parts : List Packet} {k : ℕ × List UInt8} {got rest : List (ℕ × List UInt8)} {e : FragEntry} {d : Defragger}

/-- The codepoint all fragments came with is that of the datagram. -/
theorem reassembledEcn_one (tos : UInt8) : ∃ ecn, reassembledEcn ((1 : UInt8) <<< (tos &&& 3)) = some ecn ∧
    ecn.elim tos (fun b => (tos &&& 0xFC) ||| b) = tos := by
  have h : ∀ tos : UInt8, (reassembledEcn ((1 : UInt8) <<< (tos &&& 3))).any
      (fun ecn => ecn.elim tos (fun b => (tos &&& 0xFC) ||| b) == tos) = true := by
    rw [UInt8.forall_iff]
    decide +kernel
  obtain ⟨ecn, hecn, heq⟩ := (Option.any_eq_true _ _).mp (h tos)
  exact ⟨ecn, hecn, by simpa using heq⟩

/-- Headers that differ only in their checksums are filled in alike. -/
theorem filled_congr {x y : Ipv4Header} (h : x.withCsum 0 = y.withCsum 0) (opts : List UInt8) :
    x.filled opts = y.filled opts := by
  have hwith : ∀ (z : Ipv4Header) v, z.withCsum v = (z.withCsum 0).withCsum v := fun _ _ => rfl
  rw [Ipv4Header.filled, Ipv4Header.filled, hwith x, hwith y, h]

theorem rebuild_eq_filled (y : Ipv4Header) (opts data : List UInt8) (ecn : Option UInt8) :
    Defragger.rebuild (y.bytes ++ opts) data false ecn =
      (({ y with
          len₁ := UInt8.ofNat ((20 + opts.length + data.length) / 256)
          len₂ := UInt8.ofNat (20 + opts.length + data.length)
          flags₁ := 0, flags₂ := 0
          tos := ecn.elim y.tos (fun b => (y.tos &&& 0xFC) ||| b) } : Ipv4Header).filled opts).bytes ++
            opts ++ data := by
  have htake : ∀ z : Ipv4Header, (Packet.setBe16 (z.bytes ++ opts ++ data) 10 0).take (y.bytes ++ opts).length =
      (z.withCsum 0).bytes ++ opts := fun z => by
    rw [show Packet.setBe16 (z.bytes ++ opts ++ data) 10 0 = ((z.withCsum 0).bytes ++ opts) ++ data from rfl,
      List.take_left' (by simp)]
  have hlen : (y.bytes ++ opts ++ data).length = 20 + opts.length + data.length := by
    simp only [List.length_append, Ipv4Header.length_bytes]
  simp only [Defragger.rebuild, hlen]
  cases ecn with
  | none =>
    refine (congrArg _ (congrArg checksum (htake { y with
      len₁ := UInt8.ofNat ((20 + opts.length + data.length) / 256)
      len₂ := UInt8.ofNat (20 + opts.length + data.length)
      flags₁ := 0, flags₂ := 0 }))).trans rfl
  | some b =>
    refine (congrArg _ (congrArg checksum (htake { y with
      len₁ := UInt8.ofNat ((20 + opts.length + data.length) / 256)
      len₂ := UInt8.ofNat (20 + opts.length + data.length)
      flags₁ := 0, flags₂ := 0, tos := (y.tos &&& 0xFC) ||| b }))).trans rfl

/-- The header of the first fragment, with what fragmentation changed put back. -/
theorem Whole.rebuild_eq (h : Whole c p mtu x opts later data) (hk : k.1 = 0) {ecn : Option UInt8}
    (hecn : ecn.elim x.tos (fun b => (x.tos &&& 0xFC) ||| b) = x.tos) :
    Defragger.rebuild ((fragmentAt c x opts later data k).take (20 + opts.length)) data false ecn = p := by
  have hopts : Cutter.optsAt opts later k.1 = opts := by rw [Cutter.optsAt, if_pos hk]
  have hversion : c.versionIhl x k.1 = x.versionIhl := by rw [Cutter.versionIhl, if_pos hk]
  have hlen : be16Bytes (20 + opts.length + data.length) = [x.len₁, x.len₂] := by
    refine be16Bytes_eq ?_
    have := h.total
    rw [h.packet_eq] at this
    exact this
  simp only [be16Bytes, List.cons.injEq, and_true] at hlen
  rw [fragmentAt, hopts, hversion, Ipv4Header.take_fragment, rebuild_eq_filled, h.packet_eq]
  refine congrArg (·.bytes ++ opts ++ data) (.trans (filled_congr ?_ opts) h.filled)
  rw [hlen.1, hlen.2]
  simp only [Ipv4Header.withCsum, Ipv4Header.filled, Ipv4Header.ofPiece, hecn, h.flags₁, h.flags₂]

/-- All chunks are there: their data is the datagram's. -/
theorem Held.join_eq (he : Held c x opts later data got e) (hperm : got.Perm (c.chunks 0 data)) :
    e.join data.length = data := by
  have hmem : ∀ f ∈ e.frags, ∃ k ∈ c.chunks 0 data, f = fragOf c x opts later data k := fun f hf => by
    obtain ⟨k, hk, rfl⟩ := List.mem_map.mp (he.frags.subset hf)
    exact ⟨k, hperm.subset hk, rfl⟩
  refine foldl_overwrite (by simp) (fun f hf => ?_) fun j hj => .inl ?_
  · obtain ⟨k, hk, rfl⟩ := hmem f hf
    have hpre := (Cutter.chunks_frag k hk).2
    rw [Nat.sub_zero] at hpre
    exact ⟨(bounds hk).2, hpre⟩
  · obtain ⟨k, hk, hle, hlt⟩ := (c.tiles data).cover (Nat.zero_le j) hj
    exact ⟨_, he.frags.symm.subset (List.mem_map_of_mem (hperm.symm.subset hk)), hle, hlt⟩

theorem Held.hdr_eq (he : Held c x opts later data got e) (hperm : got.Perm (c.chunks 0 data))
    (hdata : data ≠ []) :
    ∃ k ∈ c.chunks 0 data, k.1 = 0 ∧
      e.frags.findSome? (·.hdr) = some ((fragmentAt c x opts later data k).take (20 + opts.length)) := by
  obtain ⟨k, hk, hle, -⟩ := (c.tiles data).cover le_rfl (List.length_pos_of_ne_nil hdata)
  have hzero : k.1 = 0 := by omega
  have hmem : fragOf c x opts later data k ∈ e.frags :=
    he.frags.symm.subset (List.mem_map_of_mem (hperm.symm.subset hk))
  have hsome : (e.frags.findSome? (·.hdr)).isSome := by
    rw [List.findSome?_isSome_iff]
    exact ⟨_, hmem, by simp [fragOf, hzero]⟩
  obtain ⟨hdr, hhdr⟩ := Option.isSome_iff_exists.mp hsome
  obtain ⟨f, hf, hfh⟩ := List.exists_of_findSome?_eq_some hhdr
  obtain ⟨g, hgot, rfl⟩ := List.mem_map.mp (he.frags.subset hf)
  simp only [fragOf] at hfh
  split at hfh
  · next hg => exact ⟨g, hperm.subset hgot, hg, hhdr.trans hfh.symm⟩
  · cases hfh

theorem sum_chunks : ((c.chunks 0 data).map (·.2.length)).sum = data.length := by
  simpa using (c.tiles data).sum_length

def largest (parts : List Packet) : ℕ := (parts.map List.length).foldl max 0

theorem le_foldl_max {l : List ℕ} {n : ℕ} (h : n ∈ l) : n ≤ l.foldl max 0 := by
  rw [List.foldl_eq_foldr]
  exact List.le_max_of_le h le_rfl

theorem foldl_max_le {l : List ℕ} {b : ℕ} (h : ∀ n ∈ l, n ≤ b) : l.foldl max 0 ≤ b := by
  rw [List.foldl_eq_foldr]
  exact List.max_le_of_forall_le l b h

/-- One datagram is being put together. -/
def one (key : FragKey) (e : FragEntry) : Defragger := ⟨AList.singleton key e, e.charge⟩

section One

variable {key : FragKey}

theorem lookup_one : (one key e).entries.lookup key = some e := by
  rw [one, ← AList.insert_empty, AList.lookup_insert]

theorem dropEntry_one : (one key e).dropEntry key = {} := by
  have herase : (AList.singleton key e : Table FragKey FragEntry).erase key = ∅ :=
    AList.ext (by simp [AList.erase, AList.singleton, List.kerase])
  rw [Defragger.dropEntry, lookup_one]
  simp only [one, herase, Nat.sub_self]

theorem makeRoom_one {n : ℕ} (h : e.charge ≤ DEFRAG_MAX_BYTES) :
    (one key e).makeRoom key (n + 1) = (true, one key e) := by
  rw [Defragger.makeRoom, if_pos (show (one key e).charge ≤ DEFRAG_MAX_BYTES from h)]

end One

theorem Whole.complete_all (h : Whole c p mtu x opts later data) (hcut : c.cut 0 data = some parts)
    (he : Held c x opts later data got e) (hperm : got.Perm (c.chunks 0 data)) :
    (one (keyOf zone x) e).complete (keyOf zone x) =
      (some (p, some ⟨largest parts, false⟩), {}) := by
  have hchunks : c.chunks 0 data ≠ [] := fun hnil => by
    have htiles := c.tiles data
    rw [hnil] at htiles
    exact h.data_ne_nil (List.length_eq_zero_iff.mp htiles.symm)
  have htotal : e.total = some data.length := by
    rw [he.total, if_pos]
    exact ⟨_, hperm.symm.subset (List.getLast_mem hchunks),
      (c.tiles data).stop_getLast (List.getLast?_eq_some_getLast hchunks)⟩
  have hcovered : ¬ e.covered < data.length := by
    rw [he.covered, (hperm.map _).sum_eq, sum_chunks]
    exact lt_irrefl _
  have hsize : e.maxSize = largest parts := by
    rw [he.maxSize, largest, h.parts_eq hcut, List.map_map]
    exact (hperm.map _).foldl_eq 0
  obtain ⟨k, hk, hzero, hhdr⟩ := he.hdr_eq hperm h.data_ne_nil
  have hpos : 0 < e.maxSize := by
    rw [he.maxSize]
    have hle := le_foldl_max (List.mem_map_of_mem (f := fun k => (fragmentAt c x opts later data k).length)
      (hperm.symm.subset hk))
    rw [length_fragmentAt] at hle
    omega
  obtain ⟨ecn, hecn, htos⟩ := reassembledEcn_one x.tos
  have hlen : ((fragmentAt c x opts later data k).take (20 + opts.length)).length = 20 + opts.length := by
    rw [List.length_take, length_fragmentAt, Cutter.optsAt, if_pos hzero]
    omega
  have hdf : decide (e.maxDfSize = largest parts) = false := by
    rw [he.maxDfSize, ← hsize]
    exact decide_eq_false (by omega)
  have hgot : got ≠ [] := fun hnil => hchunks (by simpa [hnil] using hperm)
  have hseen : reassembledEcn e.ecn = some ecn := by rw [he.ecn, if_neg hgot, hecn]
  have hfit : ¬ 65535 < 20 + opts.length + data.length := by
    have := h.data_length_lt
    omega
  simp only [Defragger.complete, lookup_one, htotal, hcovered, if_false, hhdr, hseen, hlen, dropEntry_one,
    he.join_eq hperm, hfit, hsize, hdf, h.rebuild_eq hzero htos]

/-- Some chunks are missing: the datagram waits. -/
theorem Held.complete_none (he : Held c x opts later data got e)
    (hperm : (got ++ k :: rest).Perm (c.chunks 0 data)) :
    (one (keyOf zone x) e).complete (keyOf zone x) = (none, one (keyOf zone x) e) := by
  have hsum : (got.map (·.2.length)).sum + (k.2.length + (rest.map (·.2.length)).sum) = data.length := by
    have h := (hperm.map (·.2.length)).sum_eq
    rwa [sum_chunks, List.map_append, List.sum_append, List.map_cons, List.sum_cons] at h
  have hk := (bounds (hperm.subset (List.mem_append_right _ List.mem_cons_self))).1
  have hcovered : e.covered < data.length := by
    rw [he.covered]
    omega
  simp only [Defragger.complete, lookup_one]
  cases htotal : e.total with
  | none => rfl
  | some total =>
    have hlen : total = data.length := by
      rw [he.total] at htotal
      split at htotal
      · exact (Option.some.inj htotal).symm
      · cases htotal
    simp only [hlen, hcovered, if_true]

/-- The fragments of a datagram take up little. -/
theorem Held.charge_le (he : Held c x opts later data got e) (hopts : opts.length ≤ 40)
    (hperm : (got ++ rest).Perm (c.chunks 0 data)) : e.charge ≤ 116 * got.length + data.length := by
  have hsum : (got.map (·.2.length)).sum ≤ data.length := by
    have h := (hperm.map (·.2.length)).sum_eq
    rw [sum_chunks, List.map_append, List.sum_append] at h
    omega
  have hle : ∀ got : List (ℕ × List UInt8), (got.map fun k => (fragOf c x opts later data k).charge).sum ≤
      116 * got.length + (got.map (·.2.length)).sum := fun got => by
    induction got with
    | nil => simp
    | cons k got ih =>
      have hhdr : (fragOf c x opts later data k).hdr.elim 0 List.length ≤ 60 := by
        unfold fragOf
        split
        · simp only [Option.elim_some, List.length_take]
          omega
        · simp
      have hcharge : (fragOf c x opts later data k).charge ≤ 116 + k.2.length := by
        simp only [FragData.charge, FragData.SIZE, fragOf_data]
        omega
      simp only [List.map_cons, List.sum_cons, List.length_cons]
      omega
  have := hle got
  rw [he.charge]
  omega

/-- What the reassembler holds after the chunks `got`. -/
inductive Holding (zone : ℕ) (c : Cutter) (x : Ipv4Header) (opts later data : List UInt8) :
    List (ℕ × List UInt8) → Defragger → Prop
  | idle : Holding zone c x opts later data [] {}
  | waiting {got : List (ℕ × List UInt8)} {e : FragEntry} : Held c x opts later data got e →
    Holding zone c x opts later data got (one (keyOf zone x) e)

theorem Holding.admitEntry (hd : Holding zone c x opts later data got d) (now : Instant) :
    ∃ e, Held c x opts later data got e ∧
    d.admitEntry (keyOf zone x) now = d ∧ (d.entries.lookup (keyOf zone x)).getD { created := now } = e ∧
      d.charge = e.charge ∧
      ∀ e', d.entries.insert (keyOf zone x) e' = (one (keyOf zone x) e').entries := by
  cases hd with
  | idle => exact ⟨{ created := now }, held_new, rfl, rfl, rfl, fun e' => AList.insert_empty _ _⟩
  | waiting he =>
    refine ⟨_, he, ?_, by rw [lookup_one]; rfl, rfl, fun e' => AList.insert_singleton_eq⟩
    rw [Defragger.admitEntry, lookup_one]
    rfl

/-- A fragment is added, and the datagram put together if it was the last one missing. -/
theorem Whole.accept_fragment (h : Whole c p mtu x opts later data) (hd : Holding zone c x opts later data got d)
    (hperm : (got ++ k :: rest).Perm (c.chunks 0 data)) (hcount : (c.chunks 0 data).length ≤ DEFRAG_MAX_FRAGS)
    (now : Instant) : ∃ e, Held c x opts later data (got ++ [k]) e ∧
      d.accept (keyOf zone x) (fragOf c x opts later data k) (k.1 + k.2.length < data.length) false
        (fragmentAt c x opts later data k).length x.tos now = (one (keyOf zone x) e).complete (keyOf zone x) := by
  obtain ⟨e, he, hadm, hentry, hcharge, hinsert⟩ := hd.admitEntry now
  have hlen : got.length + (rest.length + 1) = (c.chunks 0 data).length := by
    rw [← hperm.length_eq, List.length_append, List.length_cons]
  have hfrags : ¬ DEFRAG_MAX_FRAGS ≤ e.frags.length := by
    rw [he.frags.length_eq, List.length_map]
    omega
  have hk := hperm.subset (List.mem_append_right _ List.mem_cons_self)
  have hheld := he.insert hperm
  refine ⟨_, hheld, ?_⟩
  have hroom : _ ≤ 116 * (got ++ [k]).length + data.length := hheld.charge_le h.opts_le (by simpa using hperm)
  have hdata := h.data_length_lt
  unfold DEFRAG_MAX_FRAGS at hcount hfrags
  rw [List.length_append, List.length_singleton] at hroom
  simp only [Defragger.accept, hadm, hentry, fragOf_stop, he.noteEnd (bounds hk).2, he.not_pastEnd hperm,
    he.not_overlaps hperm, hinsert]
  rw [if_neg Bool.false_ne_true, if_neg (by simpa [DEFRAG_MAX_FRAGS] using hfrags)]
  generalize hins : FragEntry.insert _ _ _ _ _ = e' at hheld hroom ⊢
  have hcharge' : d.charge + (fragOf c x opts later data k).charge = e'.charge := by
    rw [hcharge, ← hins]
    rfl
  rw [hcharge', show (⟨(one (keyOf zone x) e').entries, e'.charge⟩ : Defragger) = one (keyOf zone x) e' from rfl,
    makeRoom_one (by unfold DEFRAG_MAX_BYTES; omega)]

/-- The chunks still missing come in some order: the last one completes the datagram. -/
theorem Whole.feed_missing (h : Whole c p mtu x opts later data) (hcut : c.cut 0 data = some parts)
    (hcount : (c.chunks 0 data).length ≤ DEFRAG_MAX_FRAGS) {arrivals : List (Packet × Instant)}
    (hd : Holding zone c x opts later data got d) (hperm : (got ++ k :: rest).Perm (c.chunks 0 data))
    (harr : arrivals.map (·.1) = (k :: rest).map (fragmentAt c x opts later data)) :
    d.feed zone arrivals = (List.replicate rest.length none ++ [some (p, some ⟨largest parts, false⟩)], {}) := by
  induction rest generalizing got d k arrivals with
  | nil =>
    obtain ⟨⟨q, now⟩, arrivals, rfl⟩ : ∃ a as, arrivals = a :: as :=
      List.exists_cons_of_ne_nil (by rintro rfl; simp at harr)
    simp only [List.map_cons, List.map_nil, List.cons.injEq, List.map_eq_nil_iff] at harr
    obtain ⟨rfl, rfl⟩ := harr
    have hk := hperm.subset (List.mem_append_right _ List.mem_cons_self)
    obtain ⟨e, he, haccept⟩ := h.accept_fragment hd hperm hcount now
    simp only [Defragger.feed, h.reassembleAt_fragment hcut hk, haccept, h.complete_all hcut he hperm]
    rfl
  | cons k' rest ih =>
    obtain ⟨⟨q, now⟩, arrivals, rfl⟩ : ∃ a as, arrivals = a :: as :=
      List.exists_cons_of_ne_nil (by rintro rfl; simp at harr)
    rw [List.map_cons, List.map_cons, List.cons.injEq] at harr
    obtain ⟨hq, harr⟩ := harr
    dsimp only at hq
    have hk := hperm.subset (List.mem_append_right _ List.mem_cons_self)
    obtain ⟨e, he, haccept⟩ := h.accept_fragment hd hperm hcount now
    have hperm' : (got ++ [k] ++ k' :: rest).Perm (c.chunks 0 data) := by simpa using hperm
    simp only [Defragger.feed, hq, h.reassembleAt_fragment hcut hk, haccept, he.complete_none hperm',
      ih (.waiting he) hperm' harr]
    rfl

end Complete

/-! ## Fragmentation and reassembly are inverse -/

section Inverse

variable {p : Packet} {mtu zone : ℕ} {parts : List Packet} {x : Ipv4Header} {c : Cutter}
  {opts later data : List UInt8}

theorem filled_eq_self (hsized : Ipv4Header.Sized x.versionIhl opts) (hsum : checksum (x.bytes ++ opts) = 0)
    (hcsum : x.csum₁.toNat * 256 + x.csum₂.toNat ≠ 0xFFFF) : x.filled opts = x := by
  have hversion := hsized.version
  have hx : ∀ v, be16Bytes v = [x.csum₁, x.csum₂] → x.withCsum v = x := fun v hv => by
    simp only [be16Bytes, List.cons.injEq, and_true] at hv
    rw [Ipv4Header.withCsum, hv.1, hv.2]
  have hc₁ := x.csum₁.toNat_lt
  have hc₂ := x.csum₂.toNat_lt
  have hself := hx _ (be16Bytes_eq rfl)
  have hwords : wordSum x.bytes = wordSum (x.withCsum 0).bytes + (x.csum₁.toNat * 256 + x.csum₂.toNat) := by
    conv_lhs => rw [← hself]
    exact x.wordSum_withCsum (by omega)
  have hpos : 0 < wordSum (x.withCsum 0).bytes := by
    simp only [Ipv4Header.withCsum, Ipv4Header.bytes, wordSum]
    omega
  refine hx _ (be16Bytes_eq ?_)
  rw [checksum_eq_zero, Ipv4Header.wordSum_append, hwords] at hsum
  rw [checksum, Ipv4Header.wordSum_append, fold_eq, if_neg (by omega)]
  omega

theorem exists_whole (h : fragmentIpv4 p mtu = .fragments parts) (hlen : p.length = p.ipv4TotalLen)
    (hflags : slice p 6 8 = [0, 0]) (hsum : checksum (p.take p.ipv4HeaderLen) = 0) (hcsum : p.be16 10 ≠ 0xFFFF) :
    ∃ c x opts later data, Whole c p mtu x opts later data ∧ c.cut 0 data = some parts ∧ c.Cuts p mtu := by
  obtain ⟨c, hcuts, hcut⟩ := fragmentIpv4_eq_fragments.mp h
  obtain ⟨x, opts, later, hc⟩ := hcuts.exists_for
  generalize slice p p.ipv4HeaderLen p.ipv4TotalLen = data at hc hcut
  have hp : p = x.bytes ++ opts ++ data := by rw [← hc.packet, ← hlen, List.take_length]
  rw [hp] at hflags hcsum
  have hhdr : p.take p.ipv4HeaderLen = x.bytes ++ opts := by
    rw [hc.headerLen, hp]
    exact List.take_left' (by simp)
  rw [hhdr] at hsum
  have h6 : [x.flags₁, x.flags₂] = [0, 0] := hflags
  simp only [List.cons.injEq, and_true] at h6
  exact ⟨c, x, opts, later, data, { hc with
    length_eq := hlen
    flags₁ := h6.1
    flags₂ := h6.2
    filled := filled_eq_self hc.sized hsum hcsum }, hcut, hcuts⟩

/-- The fragments of a whole packet, in any order, are put together to it when the last one comes. -/
theorem Whole.feed_perm (h : Whole c p mtu x opts later data) (hcut : c.cut 0 data = some parts)
    (hcount : parts.length ≤ DEFRAG_MAX_FRAGS) {arrivals : List (Packet × Instant)}
    (harr : (arrivals.map (·.1)).Perm parts) : Defragger.feed zone {} arrivals =
      (List.replicate (parts.length - 1) none ++ [some (p, some ⟨largest parts, false⟩)], {}) := by
  have hparts := h.parts_eq hcut
  have hlen : parts.length = (c.chunks 0 data).length := by rw [hparts, List.length_map]
  rw [hparts] at harr
  have hrel : Relation.Comp (fun as bs => as = bs.map (fragmentAt c x opts later data))
    List.Perm (arrivals.map (·.1))
      (c.chunks 0 data) := by
    rw [List.eq_map_comp_perm]
    exact harr
  obtain ⟨order, harr, hperm⟩ := hrel
  have hne : order ≠ [] := by
    rintro rfl
    have htiles := c.tiles data
    rw [← hperm.nil_eq] at htiles
    exact h.data_ne_nil (List.length_eq_zero_iff.mp htiles.symm)
  obtain ⟨k, rest, rfl⟩ := List.exists_cons_of_ne_nil hne
  rw [h.feed_missing hcut (hlen ▸ hcount) .idle (by simpa using hperm) harr, hlen, ← hperm.length_eq]
  rfl

/-- Clearing a bit that is clear changes nothing. -/
theorem Whole.setDf_false (h : Whole c p mtu x opts later data) (hcsum : p.be16 10 ≠ 0xFFFF) :
    setDf p false = p := by
  have hp := h.packet_eq
  rw [hp] at hcsum
  have hne : x.csum₁.toNat * 256 + x.csum₂.toNat ≠ 0xFFFF := hcsum
  have hc₁ := x.csum₁.toNat_lt
  have hc₂ := x.csum₂.toNat_lt
  have hand : x.flags₁ &&& 0xBF = x.flags₁ := by rw [h.flags₁]; rfl
  have hupdate : incrementalUpdate (x.csum₁.toNat * 256 + x.csum₂.toNat)
    [x.flags₁, x.flags₂] [x.flags₁, x.flags₂] =
      x.csum₁.toNat * 256 + x.csum₂.toNat := by
    simp only [h.flags₁, h.flags₂, incrementalUpdate, onesComplementWords, wordSum, UInt8.toNat_zero]
    rw [fold_eq, if_neg (by omega)]
    omega
  have hset : setDf (x.bytes ++ opts ++ data) false =
      (({ x with flags₁ := x.flags₁ &&& 0xBF }).withCsum (incrementalUpdate (x.csum₁.toNat * 256 + x.csum₂.toNat)
        [x.flags₁, x.flags₂] [x.flags₁ &&& 0xBF, x.flags₂])).bytes ++ opts ++ data := rfl
  have hcs := be16Bytes_eq (a := x.csum₁) (b := x.csum₂) rfl
  simp only [be16Bytes, List.cons.injEq, and_true] at hcs
  rw [hp, hset, hand, hupdate, Ipv4Header.withCsum, hcs.1, hcs.2]

/-- The packet is cut for any other size that is too small for it. -/
theorem exists_fragments (h : fragmentIpv4 p mtu = .fragments parts) (hbase : p.ipv4FragmentOffset = 0)
    {mtu' : ℕ} (hmin : MIN_IPV4_MTU ≤ mtu') (hlt : mtu' < p.ipv4TotalLen) :
    ∃ parts', fragmentIpv4 p mtu' = .fragments parts' := by
  obtain ⟨c, hc, -⟩ := fragmentIpv4_eq_fragments.mp h
  obtain ⟨x, opts, later, hfor⟩ := hc.exists_for
  have hopts := hfor.opts_le
  have hlater := hfor.later_le
  have hhl := hfor.headerLen
  have hlhl : (copiedOptionsHeader (p.take p.ipv4HeaderLen)).length = 20 + later.length := by
    rw [← hc.laterHeader, hfor.laterHeader, List.length_append, Ipv4Header.length_bytes]
  unfold MIN_IPV4_MTU at hmin
  let c' : Cutter := { c with
    firstRoom := (mtu' - p.ipv4HeaderLen) / 8 * 8
    laterRoom := (mtu' - (copiedOptionsHeader (p.take p.ipv4HeaderLen)).length) / 8 * 8
    firstRoom_pos := by omega
    laterRoom_pos := by omega }
  obtain ⟨parts', hcut⟩ : ∃ parts', c'.cut 0 (slice p p.ipv4HeaderLen p.ipv4TotalLen) = some parts' := by
    refine Cutter.exists_cut fun k hk => ?_
    have hk := (c'.tiles _).mem_bounds hk
    have hdata := hfor.total
    have hlt : p.ipv4TotalLen < 65536 := Packet.be16_lt
    have hoff : c'.baseOffset = 0 := hc.baseOffset.trans hbase
    unfold MAX_FRAGMENT_OFFSET
    omega
  exact ⟨parts', fragmentIpv4_eq_fragments.mpr ⟨c', { hc with
    mtu_lt := hlt
    minMtu := hmin
    header_lt := by omega
    later_lt := by omega
    firstRoom := rfl
    laterRoom := rfl }, hcut⟩⟩

theorem Whole.chunks_eq_cons (h : Whole c p mtu x opts later data) :
    c.chunks 0 data = (0, data.take c.firstRoom) :: c.chunks c.firstRoom (data.drop c.firstRoom) := by
  rw [Cutter.chunks_cons h.data_ne_nil, Cutter.room, if_pos rfl, min_eq_left h.firstRoom_lt.le, Nat.zero_add]

theorem Whole.length_chunks_le {n : ℕ} (h : Whole c p mtu x opts later data) :
    (c.chunks 0 data).length ≤ n + 1 ↔ data.length - c.firstRoom ≤ n * c.laterRoom := by
  rw [h.chunks_eq_cons, List.length_cons, Nat.add_le_add_iff_right, Cutter.length_chunks_le c.firstRoom_pos.ne',
    List.length_drop]

theorem le_largest {q : Packet} (hq : q ∈ parts) : q.length ≤ largest parts :=
  le_foldl_max (List.mem_map_of_mem hq)

theorem Whole.le_largest_two (h : Whole c p mtu x opts later data) (hcut : c.cut 0 data = some parts) :
    20 + opts.length + c.firstRoom ≤ largest parts ∧
      20 + later.length + min c.laterRoom (data.length - c.firstRoom) ≤ largest parts := by
  have hlt := h.firstRoom_lt
  have hpos := c.firstRoom_pos
  have hrest : data.drop c.firstRoom ≠ [] := fun hnil => by
    have := congrArg List.length hnil
    rw [List.length_drop, List.length_nil] at this
    omega
  have hchunks := h.chunks_eq_cons
  rw [Cutter.chunks_cons hrest, Cutter.room, if_neg hpos.ne', List.length_drop] at hchunks
  have hle : ∀ k ∈ c.chunks 0 data, 20 + (Cutter.optsAt opts later k.1).length + k.2.length ≤
    largest parts := fun k hk => by
    rw [← @length_fragmentAt c x opts, h.parts_eq hcut]
    exact le_largest (List.mem_map_of_mem hk)
  rw [hchunks] at hle
  have hfirst := hle _ List.mem_cons_self
  have hsecond := hle _ (List.mem_cons_of_mem _ List.mem_cons_self)
  simp only [Cutter.optsAt, if_true, if_neg hpos.ne', List.length_take, List.length_drop] at hfirst hsecond
  omega

/-- Cut again to the size of its largest fragment, a packet does not come to too many. -/
theorem Whole.length_chunks_again {c' : Cutter} {x' : Ipv4Header} {opts' later' data' : List UInt8}
    (h : Whole c p mtu x opts later data) (hcut : c.cut 0 data = some parts)
    (h' : Whole c' p (max (largest parts) MIN_IPV4_MTU) x' opts' later' data')
      (hlater : later'.length = later.length)
    (hcount : (c.chunks 0 data).length ≤ DEFRAG_MAX_FRAGS) : (c'.chunks 0 data').length ≤ DEFRAG_MAX_FRAGS := by
  obtain ⟨hfirst, hsecond⟩ := h.le_largest_two hcut
  have hopts : opts'.length = opts.length := by
    have := h.headerLen
    have := h'.headerLen
    omega
  have hdata : data'.length = data.length := by
    have := h.total
    have := h'.total
    omega
  have hmax := h'.firstRoom
  have hmax' := h'.laterRoom
  have := h.firstRoom
  have := h.laterRoom
  have := h.opts_le
  have := h.later_le
  unfold DEFRAG_MAX_FRAGS MIN_IPV4_MTU at *
  rw [h'.length_chunks_le]
  rw [h.length_chunks_le] at hcount
  omega

/-- Cut again to the size of its largest fragment, a packet comes back from the fragments. -/
theorem exists_refragment (h : fragmentIpv4 p mtu = .fragments parts) (hlen : p.length = p.ipv4TotalLen)
    (hflags : slice p 6 8 = [0, 0]) (hsum : checksum (p.take p.ipv4HeaderLen) = 0) (hcsum : p.be16 10 ≠ 0xFFFF)
    (hcount : parts.length ≤ DEFRAG_MAX_FRAGS) :
    ∃ again, FragMax.refragment ⟨largest parts, false⟩ p = some again ∧ again.length ≤ DEFRAG_MAX_FRAGS ∧
      fragmentIpv4 p (max (largest parts) MIN_IPV4_MTU) = .fragments again := by
  obtain ⟨c, x, opts, later, data, hw, hcut, hc⟩ := exists_whole h hlen hflags hsum hcsum
  have hle : largest parts ≤ mtu := foldl_max_le fun n hn => by
    obtain ⟨q, hq, rfl⟩ := List.mem_map.mp hn
    exact (fragment_fits h q hq).1
  have hmtu := hw.mtu_lt
  have hmin := hw.minMtu
  have hbase : p.ipv4FragmentOffset = 0 := by rw [← hw.baseOffset, hw.baseOffset_eq]
  obtain ⟨again, hagain⟩ := exists_fragments h hbase (le_max_right (largest parts) MIN_IPV4_MTU) (by omega)
  obtain ⟨c', x', opts', later', data', hw', hcut', hc'⟩ := exists_whole hagain hlen hflags hsum hcsum
  have hlater : later'.length = later.length := by
    have heq := congrArg List.length (hc'.laterHeader.trans hc.laterHeader.symm)
    rw [hw'.laterHeader, hw.laterHeader, List.length_append, List.length_append] at heq
    simpa using heq
  refine ⟨again, ?_, ?_, hagain⟩
  · have h20 := hw.total
    rw [FragMax.refragment, if_neg (by dsimp only; omega), hw.setDf_false hcsum]
    simp only [hagain, Bool.false_eq_true, if_false]
  · rw [hw'.parts_eq hcut', List.length_map]
    rw [hw.parts_eq hcut, List.length_map] at hcount
    exact hw.length_chunks_again hcut hw' hlater hcount

def datagram (id₁ id₂ csum₁ csum₂ : UInt8) : Packet :=
  [0x45, 0, 0, 0x50, id₁, id₂, 0, 0, 0x40, 0x11, csum₁, csum₂, 10, 0, 0, 1, 10, 0, 0, 2] ++ List.replicate 60 7

/-- Its first 48 bytes of data, and the other twelve. -/
def datagramParts (id₁ id₂ csum₁ csum₂ csum₃ csum₄ : UInt8) : List Packet :=
  [[0x45, 0, 0, 0x44, id₁, id₂, 0x20, 0, 0x40, 0x11, csum₁, csum₂, 10, 0, 0, 1, 10, 0, 0, 2] ++
    List.replicate 48 7,
    [0x45, 0, 0, 0x20, id₁, id₂, 0, 6, 0x40, 0x11, csum₃, csum₄, 10, 0, 0, 1, 10, 0, 0, 2] ++ List.replicate 12 7]

end Inverse

end PktKit.Nat44
