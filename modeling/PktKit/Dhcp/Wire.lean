import PktKit.Dhcp.Leases
import PktKit.Foundations.Octets

/-! # DHCP messages as bytes

The parser and the builder. An option longer than 255 bytes is written as several instances, and the parser
joins the instances of each option wherever they are; an overload option adds the file and sname fields to where it
looks.
-/

namespace PktKit.Dhcp.Wire
open Foundations

abbrev Bytes := List UInt8

def OPT_PAD : UInt8 := 0
def OPT_SUBNET_MASK : UInt8 := 1
def OPT_ROUTER : UInt8 := 3
def OPT_DNS : UInt8 := 6
def OPT_REQUESTED_IP : UInt8 := 50
def OPT_LEASE_TIME : UInt8 := 51
def OPT_OVERLOAD : UInt8 := 52
def OPT_MESSAGE_TYPE : UInt8 := 53
def OPT_SERVER_ID : UInt8 := 54
def OPT_RENEWAL_TIME : UInt8 := 58
def OPT_REBINDING_TIME : UInt8 := 59
def OPT_CLIENT_ID : UInt8 := 61
def OPT_END : UInt8 := 255

def MIN_PACKET_LEN : ℕ := 240
def MAGIC_COOKIE : Bytes := [99, 130, 83, 99]

/-- A number of `k` bytes, the most significant first. -/
def beBytes (k n : ℕ) : Bytes := (leBytes k n).reverse

/-- The number bytes stand for, the most significant first. -/
def number (w : ℕ) (l : Bytes) : BitVec w := BitVec.ofNat w (ofLeBytes l.reverse)

/-- The pieces of `n` bytes, the last perhaps shorter. -/
def chunks (n : ℕ) (l : Bytes) : List Bytes :=
  if _h : l = [] ∨ n = 0 then [] else l.take n :: chunks n (l.drop n)
termination_by l.length
decreasing_by
  have hl : 0 < l.length := List.length_pos_of_ne_nil fun he => _h (.inl he)
  have hn : n ≠ 0 := fun he => _h (.inr he)
  rw [List.length_drop]
  omega

/-! ## Parsing -/

structure Parsed where
  op : UInt8
  xid : BitVec 32
  flags : BitVec 16
  ciaddr : Ipv4Addr
  yiaddr : Ipv4Addr
  giaddr : Ipv4Addr
  chaddr : Bytes
  htype : UInt8
  hlen : UInt8
  chaddrField : Bytes
  msgType : UInt8 := 0
  subnetMask : Option Ipv4Addr := none
  serverId : Option Ipv4Addr := none
  router : Option Ipv4Addr := none
  dns : List Ipv4Addr := []
  leaseTime : Option (BitVec 32) := none
  renewalTime : Option (BitVec 32) := none
  rebindingTime : Option (BitVec 32) := none
  requestedIp : Option Ipv4Addr := none
  clientId : Option Bytes := none

/-- The options of an area and those before it, with the instances of each joined. -/
def join (code : UInt8) (data : Bytes) : List (UInt8 × Bytes) → List (UInt8 × Bytes)
  | [] => [(code, data)]
  | (c, d) :: out => if c = code then (c, d ++ data) :: out else (c, d) :: join code data out

/-- Walk one option area. Stops at END, or at an option that runs off the area. -/
def collectOptions : Bytes → List (UInt8 × Bytes) → List (UInt8 × Bytes)
  | [], out => out
  | code :: area, out =>
    if code = OPT_END then out
    else if code = OPT_PAD then collectOptions area out
    else
      match area with
      | [] => out
      | len :: rest =>
        if rest.length < len.toNat then out
        else collectOptions (rest.drop len.toNat) (join code (rest.take len.toNat) out)
termination_by area => area.length
decreasing_by
  · simp
  · simp only [List.length_drop, List.length_cons]
    omega

/-- The options of a message, in the options field and where option 52 says there are more. -/
def options (b : Bytes) : List (UInt8 × Bytes) :=
  let opts := collectOptions (b.drop 240) []
  let overload := ((opts.lookup OPT_OVERLOAD).bind List.head?).getD 0
  let opts := if overload &&& 1 ≠ 0 then collectOptions (slice b 108 236) opts else opts
  if overload &&& 2 ≠ 0 then collectOptions (slice b 44 108) opts else opts

def header (b : Bytes) : Parsed where
  op := b.getD 0 0
  htype := b.getD 1 0
  hlen := b.getD 2 0
  xid := number 32 (slice b 4 8)
  flags := number 16 (slice b 10 12)
  ciaddr := number 32 (slice b 12 16)
  yiaddr := number 32 (slice b 16 20)
  giaddr := number 32 (slice b 24 28)
  chaddr := slice b 28 34
  chaddrField := slice b 28 44

namespace Parsed

def readOption (p : Parsed) (code : UInt8) (data : Bytes) : Parsed :=
  if code = OPT_MESSAGE_TYPE ∧ 1 ≤ data.length then { p with msgType := data.getD 0 0 }
  else if code = OPT_SUBNET_MASK ∧ data.length = 4 then { p with subnetMask := some (number 32 data) }
  else if code = OPT_SERVER_ID ∧ data.length = 4 then { p with serverId := some (number 32 data) }
  else if code = OPT_ROUTER ∧ 4 ≤ data.length then { p with router := some (number 32 (data.take 4)) }
  else if code = OPT_DNS ∧ data.length % 4 = 0 then
    { p with dns := p.dns ++ (chunks 4 data).map (number 32) }
  else if code = OPT_LEASE_TIME ∧ data.length = 4 then { p with leaseTime := some (number 32 data) }
  else if code = OPT_RENEWAL_TIME ∧ data.length = 4 then { p with renewalTime := some (number 32 data) }
  else if code = OPT_REBINDING_TIME ∧ data.length = 4 then { p with rebindingTime := some (number 32 data) }
  else if code = OPT_REQUESTED_IP ∧ data.length = 4 then { p with requestedIp := some (number 32 data) }
  else if code = OPT_CLIENT_ID ∧ 2 ≤ data.length then { p with clientId := some data }
  else p

def fromBytes (b : Bytes) : Option Parsed :=
  if b.length < MIN_PACKET_LEN + 4 then none
  else if slice b 236 240 ≠ MAGIC_COOKIE then none
  else some ((options b).foldl (fun p o => p.readOption o.1 o.2) (header b))

end Parsed

/-! ## Building -/

/-- A message under construction: its bytes so far. -/
structure Builder where
  buf : Bytes

/-- The calls that set a field or add an option. -/
inductive Call
  | hardware (htype hlen : UInt8) (chaddr : { l : Bytes // l.length = 16 })
  | ciaddr (ip : Ipv4Addr)
  | yiaddr (ip : Ipv4Addr)
  | siaddr (ip : Ipv4Addr)
  | giaddr (ip : Ipv4Addr)
  | flags (flags : BitVec 16)
  | option (code : UInt8) (data : Bytes)

namespace Call

def messageType (t : UInt8) : Call := .option OPT_MESSAGE_TYPE [t]

def u32Option (code : UInt8) (v : BitVec 32) : Call := .option code (beBytes 4 v.toNat)

end Call

namespace Builder

def new (op : UInt8) (xid : BitVec 32) (chaddr : MacAddr) : Builder :=
  let buf := List.replicate 240 0
  let buf := overwrite buf 0 [op]
  let buf := overwrite buf 1 [1]
  let buf := overwrite buf 2 [6]
  let buf := overwrite buf 4 (beBytes 4 xid.toNat)
  let buf := overwrite buf 28 chaddr.val
  ⟨overwrite buf 236 MAGIC_COOKIE⟩

def encodeOption (code : UInt8) (data : Bytes) : Bytes :=
  if data = [] then [code, 0]
  else (chunks 255 data).flatMap fun chunk => code :: UInt8.ofNat chunk.length :: chunk

def apply (b : Builder) : Call → Builder
  | .hardware htype hlen chaddr => ⟨overwrite (overwrite (overwrite b.buf 1 [htype]) 2 [hlen]) 28 chaddr.val⟩
  | .ciaddr ip => ⟨overwrite b.buf 12 (beBytes 4 ip.toNat)⟩
  | .yiaddr ip => ⟨overwrite b.buf 16 (beBytes 4 ip.toNat)⟩
  | .siaddr ip => ⟨overwrite b.buf 20 (beBytes 4 ip.toNat)⟩
  | .giaddr ip => ⟨overwrite b.buf 24 (beBytes 4 ip.toNat)⟩
  | .flags flags => ⟨overwrite b.buf 10 (beBytes 2 flags.toNat)⟩
  | .option code data => ⟨b.buf ++ encodeOption code data⟩

/-- The finished message, padded to the least length of a BOOTP message. -/
def finish (b : Builder) : Bytes :=
  let buf := b.buf ++ [OPT_END]
  buf ++ List.replicate (300 - buf.length) 0

end Builder

/-! ## Options joined -/

section Options

variable {code c : UInt8} {data : Bytes} {out : List (UInt8 × Bytes)}

theorem lookup_cons (d : Bytes) : ((code, d) :: out).lookup c = if c = code then some d else out.lookup c := by
  by_cases h : c = code
  · simp [List.lookup, h]
  · simp [List.lookup, beq_false_of_ne h, h]

theorem lookup_join : (join code data out).lookup c =
    if c = code then some ((out.lookup code).getD [] ++ data) else out.lookup c := by
  induction out with
  | nil => by_cases h : c = code <;> simp [join, lookup_cons, h]
  | cons o out ih =>
    obtain ⟨c', d⟩ := o
    rw [join]
    by_cases hc' : c' = code
    · by_cases h : c = code <;> simp [hc', h, lookup_cons]
    · rw [if_neg hc', lookup_cons, ih, lookup_cons, lookup_cons]
      by_cases h : c = code
      · simp [h, Ne.symm hc']
      · simp [h]

theorem keys_join : (join code data out).map Prod.fst =
    if code ∈ out.map Prod.fst then out.map Prod.fst else out.map Prod.fst ++ [code] := by
  induction out with
  | nil => rfl
  | cons o out ih =>
    obtain ⟨c', d⟩ := o
    rw [join]
    by_cases hc' : c' = code
    · simp [hc']
    · rw [if_neg hc', List.map_cons, ih, List.map_cons]
      by_cases h : code ∈ out.map Prod.fst
      · simp [h]
      · simp [h, Ne.symm hc']

theorem nodup_join (h : (out.map Prod.fst).Nodup) : ((join code data out).map Prod.fst).Nodup := by
  rw [keys_join]
  split
  · exact h
  · next hc =>
    rw [List.nodup_append]
    refine ⟨h, List.nodup_singleton _, ?_⟩
    rintro a ha b hb rfl
    exact hc (List.mem_singleton.mp hb ▸ ha)

theorem join_join (d : Bytes) : join code d (join code data out) = join code (data ++ d) out := by
  induction out with
  | nil => simp [join]
  | cons o out ih =>
    obtain ⟨c', e⟩ := o
    by_cases hc' : c' = code
    · simp [join, hc']
    · simp [join, hc', ih]

theorem nodup_collectOptions (area : Bytes) (out : List (UInt8 × Bytes)) (h : (out.map Prod.fst).Nodup) :
    ((collectOptions area out).map Prod.fst).Nodup := by
  fun_induction collectOptions area out with
  | case1 out => exact h
  | case2 => exact h
  | case3 area out h1 ih => exact ih h
  | case4 => exact h
  | case5 => exact h
  | case6 code out h1 h2 len rest h3 ih => exact ih (nodup_join h)

/-- A value as one of the instances of an area, or the join of several. -/
def Within (b d : Bytes) : Prop := ∃ pieces : List Bytes, d = pieces.flatten ∧ ∀ s ∈ pieces, s <:+: b

theorem Within.append {b d d' : Bytes} (h : Within b d) (h' : Within b d') : Within b (d ++ d') := by
  obtain ⟨pieces, rfl, hp⟩ := h
  obtain ⟨pieces', rfl, hp'⟩ := h'
  refine ⟨pieces ++ pieces', List.flatten_append.symm, fun s hs => ?_⟩
  exact (List.mem_append.mp hs).elim (hp s) (hp' s)

theorem Within.single {b d : Bytes} (h : d <:+: b) : Within b d := ⟨[d], by simp, by simpa using h⟩

theorem within_join {b : Bytes} (hd : data <:+: b) (hout : ∀ c d, out.lookup c = some d → Within b d) (c : UInt8)
    (d : Bytes) (h : (join code data out).lookup c = some d) : Within b d := by
  rw [lookup_join] at h
  split_ifs at h with hc
  · cases h
    apply Within.append _ (.single hd)
    cases hl : out.lookup code with
    | none => exact ⟨[], rfl, by simp⟩
    | some e => exact hout code e hl
  · exact hout c d h

theorem within_collectOptions {b : Bytes} (area : Bytes) (out : List (UInt8 × Bytes)) (ha : area <:+: b)
    (hout : ∀ c d, out.lookup c = some d → Within b d) (c : UInt8) (d : Bytes)
    (h : (collectOptions area out).lookup c = some d) : Within b d := by
  fun_induction collectOptions area out with
  | case1 out => exact hout c d h
  | case2 => exact hout c d h
  | case3 area out h1 ih => exact ih ((List.suffix_cons _ _).isInfix.trans ha) hout h
  | case4 => exact hout c d h
  | case5 => exact hout c d h
  | case6 code out h1 h2 len rest h3 ih =>
    have hrest : rest <:+: b := ((List.suffix_cons _ _).trans (List.suffix_cons _ _)).isInfix.trans ha
    apply ih ((List.drop_suffix _ _).isInfix.trans hrest) _ h
    exact within_join ((List.take_prefix _ _).isInfix.trans hrest) hout

theorem nodup_options (b : Bytes) : ((options b).map Prod.fst).Nodup := by
  have h := nodup_collectOptions (b.drop 240) [] List.nodup_nil
  unfold options
  dsimp only
  split_ifs
  · exact nodup_collectOptions _ _ (nodup_collectOptions _ _ h)
  · exact nodup_collectOptions _ _ h
  · exact nodup_collectOptions _ _ h
  · exact h

theorem within_options (b : Bytes) (c : UInt8) (d : Bytes) (h : (options b).lookup c = some d) : Within b d := by
  have h1 := within_collectOptions (b.drop 240) [] (List.drop_suffix _ _).isInfix (by simp)
  unfold options at h
  dsimp only at h
  split_ifs at h
  · exact within_collectOptions _ _ (slice_isInfixOf _ _ _)
      (within_collectOptions _ _ (slice_isInfixOf _ _ _) h1) _ _ h
  · exact within_collectOptions _ _ (slice_isInfixOf _ _ _) h1 _ _ h
  · exact within_collectOptions _ _ (slice_isInfixOf _ _ _) h1 _ _ h
  · exact h1 c d h

end Options

/-! ## What the options say -/

namespace Parsed

/-- A header with the fields its options give, each by its code. -/
def withOptions (p : Parsed) (get : UInt8 → Option Bytes) : Parsed :=
  let word (code : UInt8) : Option (BitVec 32) :=
    (get code).bind fun d => if d.length = 4 then some (number 32 d) else none
  { p with
    msgType := ((get OPT_MESSAGE_TYPE).bind List.head?).getD p.msgType
    subnetMask := (word OPT_SUBNET_MASK).or p.subnetMask
    serverId := (word OPT_SERVER_ID).or p.serverId
    router := ((get OPT_ROUTER).bind fun d => if 4 ≤ d.length then some (number 32 (d.take 4))
      else none).or p.router
    dns := p.dns ++ ((get OPT_DNS).elim [] fun d => if d.length % 4 = 0 then (chunks 4 d).map (number 32) else [])
    leaseTime := (word OPT_LEASE_TIME).or p.leaseTime
    renewalTime := (word OPT_RENEWAL_TIME).or p.renewalTime
    rebindingTime := (word OPT_REBINDING_TIME).or p.rebindingTime
    requestedIp := (word OPT_REQUESTED_IP).or p.requestedIp
    clientId := ((get OPT_CLIENT_ID).bind fun d => if 2 ≤ d.length then some d else none).or p.clientId }

theorem withOptions_none (p : Parsed) : p.withOptions (fun _ => none) = p := by
  simp [withOptions]

theorem withOptions_readOption (p : Parsed) {code : UInt8} {data : Bytes} {get : UInt8 → Option Bytes}
    (h : get code = none) : (p.readOption code data).withOptions get =
      p.withOptions fun c => if c = code then some data else get c := by
  by_cases hk : code ∈ [OPT_MESSAGE_TYPE, OPT_SUBNET_MASK, OPT_SERVER_ID, OPT_ROUTER, OPT_DNS, OPT_LEASE_TIME,
    OPT_RENEWAL_TIME, OPT_REBINDING_TIME, OPT_REQUESTED_IP, OPT_CLIENT_ID]
  · simp only [List.mem_cons, List.not_mem_nil, or_false] at hk
    rcases hk with rfl | rfl | rfl | rfl | rfl | rfl | rfl | rfl | rfl | rfl
    · cases data <;> simp +decide [readOption, withOptions, h]
    · by_cases hl : data.length = 4 <;> simp +decide [readOption, withOptions, h, hl]
    · by_cases hl : data.length = 4 <;> simp +decide [readOption, withOptions, h, hl]
    · by_cases hl : 4 ≤ data.length <;> simp +decide [readOption, withOptions, h, hl]
    · by_cases hl : data.length % 4 = 0 <;> simp +decide [readOption, withOptions, h, hl]
    · by_cases hl : data.length = 4 <;> simp +decide [readOption, withOptions, h, hl]
    · by_cases hl : data.length = 4 <;> simp +decide [readOption, withOptions, h, hl]
    · by_cases hl : data.length = 4 <;> simp +decide [readOption, withOptions, h, hl]
    · by_cases hl : data.length = 4 <;> simp +decide [readOption, withOptions, h, hl]
    · by_cases hl : 2 ≤ data.length <;> simp +decide [readOption, withOptions, h, hl]
  · simp only [List.mem_cons, List.not_mem_nil, or_false, not_or] at hk
    simp [readOption, withOptions, hk, Ne.symm, eq_comm]

theorem foldl_readOption (p : Parsed) (opts : List (UInt8 × Bytes)) (h : (opts.map Prod.fst).Nodup) :
    opts.foldl (fun p o => p.readOption o.1 o.2) p = p.withOptions fun c => opts.lookup c := by
  induction opts generalizing p with
  | nil => exact (p.withOptions_none).symm
  | cons o opts ih =>
    obtain ⟨hno, hrest⟩ := List.nodup_cons.mp h
    have hnone : opts.lookup o.1 = none := by
      rw [List.lookup_eq_none_iff]
      intro o' ho'
      have hne : o.1 ≠ o'.1 := fun he => hno (he ▸ List.mem_map_of_mem ho')
      exact bne_iff_ne.mpr hne
    rw [List.foldl_cons, ih _ hrest, withOptions_readOption p hnone]
    congr 1
    funext c
    exact (lookup_cons o.2).symm

theorem fromBytes_eq (b : Bytes) : fromBytes b =
    if 244 ≤ b.length ∧ slice b 236 240 = MAGIC_COOKIE then some
      ((header b).withOptions fun c => (options b).lookup c)
    else none := by
  rw [fromBytes, foldl_readOption _ _ (nodup_options b)]
  by_cases hl : b.length < MIN_PACKET_LEN + 4
  · rw [if_pos hl, if_neg fun h => absurd h.1 (not_le.mpr hl)]
  · by_cases hc : slice b 236 240 = MAGIC_COOKIE
    · rw [if_neg hl, if_neg (not_not.mpr hc), if_pos ⟨not_lt.mp hl, hc⟩]
    · rw [if_neg hl, if_pos hc, if_neg fun h => hc h.2]

end Parsed

/-! ## Reading what was built -/

section Fields

variable {b : Bytes}

theorem number_beBytes {k : ℕ} (x : BitVec (8 * k)) : number (8 * k) (beBytes k x.toNat) = x := by
  have hx : x.toNat < 256 ^ k := by
    have h := x.isLt
    rwa [pow_mul] at h
  rw [number, beBytes, List.reverse_reverse, ofLeBytes_leBytes, Nat.mod_eq_of_lt hx, BitVec.ofNat_toNat,
    BitVec.setWidth_eq]

theorem number_word (x : BitVec 32) : number 32 (beBytes 4 x.toNat) = x := number_beBytes (k := 4) x

theorem number_half (x : BitVec 16) : number 16 (beBytes 2 x.toNat) = x := number_beBytes (k := 2) x

@[simp] theorem beBytes_length (k n : ℕ) : (beBytes k n).length = k := by simp [beBytes]

theorem header_append {x y : Bytes} (h : 240 ≤ x.length) : header (x ++ y) = header x := by
  have hs : ∀ a b, b ≤ 240 → slice (x ++ y) a b = slice x a b := fun a b hb => slice_append_of_le (hb.trans h)
  have hg : ∀ i, i < 240 → (x ++ y).getD i 0 = x.getD i 0 := fun i hi =>
    List.getD_append _ _ _ _ (hi.trans_le h)
  simp only [header, hs _ _ (show 8 ≤ 240 by decide), hs _ _ (show 12 ≤ 240 by decide),
    hs _ _ (show 16 ≤ 240 by decide), hs _ _ (show 20 ≤ 240 by decide), hs _ _ (show 28 ≤ 240 by decide),
    hs _ _ (show 34 ≤ 240 by decide), hs _ _ (show 44 ≤ 240 by decide), hg 0 (by decide), hg 1 (by decide),
    hg 2 (by decide)]

/-! Each field is written where it is read, and apart from the others. -/

variable {l : Bytes} (h : 240 ≤ l.length)
include h

theorem header_op (x : UInt8) : header (overwrite l 0 [x]) = { header l with op := x } := by
  have hl : 0 + [x].length ≤ l.length := by simp; omega
  simp (disch := simp) [header, getElem?_overwrite hl, slice_overwrite_of_disjoint hl]

theorem header_htype (x : UInt8) : header (overwrite l 1 [x]) = { header l with htype := x } := by
  have hl : 1 + [x].length ≤ l.length := by simp; omega
  simp (disch := simp) [header, getElem?_overwrite hl, slice_overwrite_of_disjoint hl]

theorem header_hlen (x : UInt8) : header (overwrite l 2 [x]) = { header l with hlen := x } := by
  have hl : 2 + [x].length ≤ l.length := by simp; omega
  simp (disch := simp) [header, getElem?_overwrite hl, slice_overwrite_of_disjoint hl]

theorem header_xid (x : BitVec 32) : header (overwrite l 4 (beBytes 4 x.toNat)) = { header l with xid := x } := by
  have hl : 4 + (beBytes 4 x.toNat).length ≤ l.length := by simp; omega
  simp (disch := simp) [header, getElem?_overwrite hl, slice_overwrite_of_disjoint hl, slice_overwrite_self hl,
    number_word]

theorem header_flags (x : BitVec 16) : header (overwrite l 10 (beBytes 2 x.toNat)) =
    { header l with flags := x } := by
  have hl : 10 + (beBytes 2 x.toNat).length ≤ l.length := by simp; omega
  simp (disch := simp) [header, getElem?_overwrite hl, slice_overwrite_of_disjoint hl, slice_overwrite_self hl,
    number_half]

theorem header_ciaddr (x : Ipv4Addr) : header (overwrite l 12 (beBytes 4 x.toNat)) =
    { header l with ciaddr := x } := by
  have hl : 12 + (beBytes 4 x.toNat).length ≤ l.length := by simp; omega
  simp (disch := simp) [header, getElem?_overwrite hl, slice_overwrite_of_disjoint hl, slice_overwrite_self hl,
    number_word]

theorem header_yiaddr (x : Ipv4Addr) : header (overwrite l 16 (beBytes 4 x.toNat)) =
    { header l with yiaddr := x } := by
  have hl : 16 + (beBytes 4 x.toNat).length ≤ l.length := by simp; omega
  simp (disch := simp) [header, getElem?_overwrite hl, slice_overwrite_of_disjoint hl, slice_overwrite_self hl,
    number_word]

theorem header_siaddr (x : Ipv4Addr) : header (overwrite l 20 (beBytes 4 x.toNat)) = header l := by
  have hl : 20 + (beBytes 4 x.toNat).length ≤ l.length := by simp; omega
  simp (disch := simp) [header, getElem?_overwrite hl, slice_overwrite_of_disjoint hl]

theorem header_giaddr (x : Ipv4Addr) : header (overwrite l 24 (beBytes 4 x.toNat)) =
    { header l with giaddr := x } := by
  have hl : 24 + (beBytes 4 x.toNat).length ≤ l.length := by simp; omega
  simp (disch := simp) [header, getElem?_overwrite hl, slice_overwrite_of_disjoint hl, slice_overwrite_self hl,
    number_word]

theorem header_chaddr (x : MacAddr) : header (overwrite l 28 x.val) =
    { header l with chaddr := x.val, chaddrField := x.val ++ slice l 34 44 } := by
  have hx := x.property
  have hl : 28 + x.val.length ≤ l.length := by omega
  simp (disch := simp [hx]) [header, getElem?_overwrite hl, slice_overwrite_of_disjoint hl,
    slice_overwrite_self hl,
    slice_overwrite_past hl, hx]

theorem header_chaddrField (x : { l : Bytes // l.length = 16 }) : header (overwrite l 28 x.val) =
    { header l with chaddr := x.val.take 6, chaddrField := x.val } := by
  have hx := x.property
  have hl : 28 + x.val.length ≤ l.length := by omega
  simp (disch := simp [hx]) [header, getElem?_overwrite hl, slice_overwrite_of_disjoint hl,
    slice_overwrite_self hl,
    slice_overwrite_start hl]

theorem header_cookie : header (overwrite l 236 MAGIC_COOKIE) = header l := by
  have hl : 236 + MAGIC_COOKIE.length ≤ l.length := by simp [MAGIC_COOKIE]; omega
  simp (disch := simp) [header, getElem?_overwrite hl, slice_overwrite_of_disjoint hl]

end Fields

def Call.set (p : Parsed) : Call → Parsed
  | .hardware htype hlen chaddr =>
    { p with htype := htype, hlen := hlen, chaddr := chaddr.val.take 6, chaddrField := chaddr.val }
  | .ciaddr ip => { p with ciaddr := ip }
  | .yiaddr ip => { p with yiaddr := ip }
  | .siaddr _ => p
  | .giaddr ip => { p with giaddr := ip }
  | .flags f => { p with flags := f }
  | .option _ _ => p

theorem header_apply (b : Builder) (h : 240 ≤ b.buf.length) (c : Call) :
    header (b.apply c).buf = c.set (header b.buf) := by
  cases c with
  | hardware htype hlen chaddr =>
    have h1 : 240 ≤ (overwrite b.buf 1 [htype]).length := by
      rwa [length_overwrite (by simp; omega)]
    have h2 : 240 ≤ (overwrite (overwrite b.buf 1 [htype]) 2 [hlen]).length := by
      rwa [length_overwrite (by simp; omega)]
    rw [Builder.apply, header_chaddrField h2, header_hlen h1, header_htype h]
    rfl
  | ciaddr ip => exact header_ciaddr h ip
  | yiaddr ip => exact header_yiaddr h ip
  | siaddr ip => exact header_siaddr h ip
  | giaddr ip => exact header_giaddr h ip
  | flags flags => exact header_flags h flags
  | option code data => exact header_append h

def newHeader (op : UInt8) (xid : BitVec 32) (chaddr : MacAddr) : Parsed where
  op := op
  htype := 1
  hlen := 6
  xid := xid
  flags := 0
  ciaddr := 0
  yiaddr := 0
  giaddr := 0
  chaddr := chaddr.val
  chaddrField := chaddr.val ++ List.replicate 10 0

/-- Bytes of a message's fixed part with nothing after the hardware address yet. -/
structure Blank (l : Bytes) : Prop where
  length : l.length = 240
  rest : slice l 34 44 = List.replicate 10 0

theorem Blank.overwrite {l : Bytes} (h : Blank l) (i : ℕ) (new : Bytes) (hi : i + new.length ≤ 34) :
    Blank (overwrite l i new) := by
  have hlen := h.length
  have hl : i + new.length ≤ l.length := by omega
  exact ⟨(length_overwrite hl).trans hlen, (slice_overwrite_of_disjoint hl (.inr hi)).trans h.rest⟩

theorem blank_replicate : Blank (List.replicate 240 0) := ⟨List.length_replicate, rfl⟩

/-- The fixed part of a new message but for its cookie. -/
def start (op : UInt8) (xid : BitVec 32) : Bytes :=
  overwrite (overwrite (overwrite (overwrite (List.replicate 240 0) 0 [op]) 1 [1]) 2 [6]) 4 (beBytes 4 xid.toNat)

theorem start_spec (op : UInt8) (xid : BitVec 32) : Blank (start op xid) ∧
    header (start op xid) = newHeader op xid ⟨List.replicate 6 0, rfl⟩ := by
  have h1 := blank_replicate.overwrite 0 [op] (by simp)
  have h2 := h1.overwrite 1 [1] (by simp)
  have h3 := h2.overwrite 2 [6] (by simp)
  refine ⟨h3.overwrite 4 _ (by simp), ?_⟩
  rw [start, header_xid h3.length.ge, header_hlen h2.length.ge, header_htype h1.length.ge,
    header_op blank_replicate.length.ge]
  rfl

theorem header_new (op : UInt8) (xid : BitVec 32) (chaddr : MacAddr) :
    header (Builder.new op xid chaddr).buf = newHeader op xid chaddr := by
  have hc := chaddr.property
  obtain ⟨hb, hh⟩ := start_spec op xid
  have hb' := hb.overwrite 28 chaddr.val (by omega)
  change header (overwrite (overwrite (start op xid) 28 chaddr.val) 236 MAGIC_COOKIE) = _
  rw [header_cookie hb'.length.ge, header_chaddr hb.length.ge, hh, hb.rest]
  rfl

def Call.bytes : Call → Bytes
  | .option code data => Builder.encodeOption code data
  | _ => []

/-- A message under construction whose options so far are `opts`. -/
structure Builder.Holds (b : Builder) (opts : Bytes) : Prop where
  length : 240 ≤ b.buf.length
  cookie : slice b.buf 236 240 = MAGIC_COOKIE
  options : b.buf.drop 240 = opts

theorem Builder.Holds.overwrite {b : Builder} {opts : Bytes} (h : b.Holds opts) (i : ℕ) (new : Bytes)
    (hi : i + new.length ≤ 236) : Builder.Holds ⟨overwrite b.buf i new⟩ opts := by
  have hlen := h.length
  have hl : i + new.length ≤ b.buf.length := by omega
  refine ⟨?_, ?_, ?_⟩
  · rw [length_overwrite hl]
    exact hlen
  · rw [slice_overwrite_of_disjoint hl (.inr hi)]
    exact h.cookie
  · rw [drop_overwrite_of_le (by omega) (by omega)]
    exact h.options

theorem Builder.Holds.append {b : Builder} {opts : Bytes} (h : b.Holds opts) (more : Bytes) :
    Builder.Holds ⟨b.buf ++ more⟩ (opts ++ more) := by
  refine ⟨?_, ?_, ?_⟩
  · have hlen := h.length
    rw [List.length_append]
    omega
  · rw [slice_append_of_le h.length]
    exact h.cookie
  · rw [List.drop_append_of_le_length h.length, h.options]

theorem Builder.Holds.apply {b : Builder} {opts : Bytes} (h : b.Holds opts) (c : Call) :
    (b.apply c).Holds (opts ++ c.bytes) := by
  cases c with
  | hardware htype hlen chaddr =>
    have hc := chaddr.property
    have h3 := ((h.overwrite 1 [htype] (by simp)).overwrite 2 [hlen] (by simp)).overwrite 28
      chaddr.val (by simp [hc])
    simpa [Call.bytes, Builder.apply] using h3
  | option code data => exact h.append _
  | ciaddr ip => simpa [Call.bytes, Builder.apply] using h.overwrite 12 _ (by simp)
  | yiaddr ip => simpa [Call.bytes, Builder.apply] using h.overwrite 16 _ (by simp)
  | siaddr ip => simpa [Call.bytes, Builder.apply] using h.overwrite 20 _ (by simp)
  | giaddr ip => simpa [Call.bytes, Builder.apply] using h.overwrite 24 _ (by simp)
  | flags flags => simpa [Call.bytes, Builder.apply] using h.overwrite 10 _ (by simp)

theorem Builder.holds_new (op : UInt8) (xid : BitVec 32) (chaddr : MacAddr) :
    (Builder.new op xid chaddr).Holds [] := by
  have hc := chaddr.property
  have hb := (start_spec op xid).1.overwrite 28 chaddr.val (by omega)
  have hl : 236 + MAGIC_COOKIE.length ≤ _ := hb.length.ge
  have hlen : (Builder.new op xid chaddr).buf.length = 240 := (length_overwrite hl).trans hb.length
  exact ⟨hlen.ge, slice_overwrite_self hl rfl, List.drop_eq_nil_of_le hlen.le⟩

def build (op : UInt8) (xid : BitVec 32) (chaddr : MacAddr) (cs : List Call) : Bytes :=
  (cs.foldl Builder.apply (Builder.new op xid chaddr)).finish

theorem foldl_apply {b : Builder} {opts : Bytes} (h : b.Holds opts) (cs : List Call) :
    (cs.foldl Builder.apply b).Holds (opts ++ cs.flatMap Call.bytes) ∧
      header (cs.foldl Builder.apply b).buf = cs.foldl Call.set (header b.buf) := by
  induction cs generalizing b opts with
  | nil => exact ⟨by simpa using h, rfl⟩
  | cons c cs ih =>
    obtain ⟨hh, hs⟩ := ih (h.apply c)
    rw [List.foldl_cons, List.foldl_cons, List.flatMap_cons, ← List.append_assoc, ← header_apply b h.length c]
    exact ⟨hh, hs⟩

/-! ## Options written and read back -/

section RoundTrip

variable {code : UInt8} {rest : Bytes} {out : List (UInt8 × Bytes)}

theorem collectOptions_end : collectOptions (OPT_END :: rest) out = out := by
  unfold collectOptions
  simp

theorem collectOptions_instance (h0 : code ≠ OPT_PAD) (h255 : code ≠ OPT_END) (chunk : Bytes)
    (hl : chunk.length ≤ 255) : collectOptions (code :: UInt8.ofNat chunk.length :: chunk ++ rest) out =
      collectOptions rest (join code chunk out) := by
  have hlen : (UInt8.ofNat chunk.length).toNat = chunk.length := by
    rw [UInt8.toNat_ofNat']
    omega
  rw [List.cons_append, List.cons_append, collectOptions, if_neg h255, if_neg h0]
  simp only [hlen, List.length_append, Nat.not_lt.mpr (Nat.le_add_right _ _), if_false, List.drop_left,
    List.take_left]

theorem collectOptions_chunks (h0 : code ≠ OPT_PAD) (h255 : code ≠ OPT_END) {data : Bytes} (hd : data ≠ [])
    (out : List (UInt8 × Bytes)) : collectOptions
      (((chunks 255 data).flatMap fun chunk => code :: UInt8.ofNat chunk.length :: chunk) ++ rest) out =
      collectOptions rest (join code data out) := by
  induction hn : data.length using Nat.strong_induction_on generalizing data out with
  | _ n ih =>
    have hpos := List.length_pos_of_ne_nil hd
    rw [chunks, dif_neg (by simpa using hd), List.flatMap_cons, List.append_assoc,
      collectOptions_instance h0 h255 _ (List.length_take_le _ _)]
    by_cases hr : data.drop 255 = []
    · rw [hr, chunks, dif_pos (.inl rfl), List.flatMap_nil, List.nil_append,
        List.take_of_length_le (List.drop_eq_nil_iff.mp hr)]
    · rw [ih (data.drop 255).length (by rw [List.length_drop]; omega) hr _ rfl, join_join, List.take_append_drop]

theorem collectOptions_encodeOption (h0 : code ≠ OPT_PAD) (h255 : code ≠ OPT_END) (data : Bytes) :
    collectOptions (Builder.encodeOption code data ++ rest) out = collectOptions rest (join code data out) := by
  rw [Builder.encodeOption]
  split
  · next hd =>
    subst hd
    exact collectOptions_instance h0 h255 [] (by simp)
  · next hd => exact collectOptions_chunks h0 h255 hd out

def valuesFor (code : UInt8) (cs : List Call) : List Bytes :=
  cs.filterMap fun
    | .option c data => if c = code then some data else none
    | _ => none

theorem valuesFor_option (c : UInt8) (data : Bytes) (cs : List Call) : valuesFor code (.option c data :: cs) =
    if c = code then data :: valuesFor code cs else valuesFor code cs := by
  by_cases hc : c = code <;> simp [valuesFor, hc]

def added (cs : List Call) (code : UInt8) : Option Bytes :=
  if valuesFor code cs = [] then none else some (valuesFor code cs).flatten

def Call.joinTo (out : List (UInt8 × Bytes)) : Call → List (UInt8 × Bytes)
  | .option code data => join code data out
  | _ => out

theorem collectOptions_calls (cs : List Call) (out : List (UInt8 × Bytes))
    (h : ∀ code data, .option code data ∈ cs → code ≠ OPT_PAD ∧ code ≠ OPT_END) :
    collectOptions (cs.flatMap Call.bytes ++ rest) out = collectOptions rest (cs.foldl Call.joinTo out) := by
  induction cs generalizing out with
  | nil => rfl
  | cons c cs ih =>
    have hcs : ∀ code data, .option code data ∈ cs → code ≠ OPT_PAD ∧ code ≠ OPT_END := fun code data hm =>
      h code data (List.mem_cons_of_mem c hm)
    rw [List.flatMap_cons, List.append_assoc, List.foldl_cons]
    cases c with
    | option code data =>
      obtain ⟨h0, h255⟩ := h code data List.mem_cons_self
      rw [Call.bytes, collectOptions_encodeOption h0 h255, ih _ hcs, Call.joinTo]
    | _ => exact ih out hcs

theorem lookup_joinTo (cs : List Call) (out : List (UInt8 × Bytes)) : (cs.foldl Call.joinTo out).lookup code =
    if valuesFor code cs = [] then out.lookup code
    else some ((out.lookup code).getD [] ++ (valuesFor code cs).flatten) := by
  induction cs generalizing out with
  | nil => rfl
  | cons c cs ih =>
    rw [List.foldl_cons, ih]
    cases c with
    | option c data =>
      rw [Call.joinTo, lookup_join, valuesFor_option]
      by_cases hc : code = c
      · subst hc
        by_cases hv : valuesFor code cs = [] <;> simp [hv]
      · simp [hc, Ne.symm hc]
    | _ => rfl

theorem lookup_joinTo_nil (cs : List Call) : (cs.foldl Call.joinTo []).lookup code = added cs code := by
  rw [lookup_joinTo, added]
  rfl

end RoundTrip

/-- No call adds an option of a code that is no option or that says where options are. -/
def Plain (cs : List Call) : Prop :=
  ∀ code data, .option code data ∈ cs → code ≠ OPT_PAD ∧ code ≠ OPT_OVERLOAD ∧ code ≠ OPT_END

theorem added_overload {cs : List Call} (h : Plain cs) : added cs OPT_OVERLOAD = none := by
  have hv : valuesFor OPT_OVERLOAD cs = [] := by
    rw [valuesFor, List.filterMap_eq_nil_iff]
    intro c hc
    cases c with
    | option code data => exact if_neg (h code data hc).2.1
    | _ => rfl
  rw [added, if_pos hv]

theorem lookup_options_of_drop {b : Bytes} {cs : List Call} (h : Plain cs) {pad : Bytes}
    (hb : b.drop 240 = cs.flatMap Call.bytes ++ OPT_END :: pad) (code : UInt8) :
    (options b).lookup code = added cs code := by
  have hc : collectOptions (b.drop 240) [] = cs.foldl Call.joinTo [] := by
    rw [hb, collectOptions_calls cs [] fun code data hm => ⟨(h code data hm).1, (h code data hm).2.2⟩,
      collectOptions_end]
  have ho : (options b) = cs.foldl Call.joinTo [] := by
    simp only [options, hc, lookup_joinTo_nil, added_overload h]
    rfl
  rw [ho, lookup_joinTo_nil]

theorem Builder.finish_eq (b : Builder) : ∃ pad, b.finish = b.buf ++ OPT_END :: pad ∧ 300 ≤ b.finish.length := by
  refine ⟨List.replicate (300 - (b.buf ++ [OPT_END]).length) 0, ?_, ?_⟩
  · rw [Builder.finish, List.append_assoc]
    rfl
  · rw [Builder.finish, List.length_append, List.length_replicate]
    omega

theorem build_eq (op : UInt8) (xid : BitVec 32) (chaddr : MacAddr) (cs : List Call) : ∃ pad,
    (build op xid chaddr cs).drop 240 = cs.flatMap Call.bytes ++ OPT_END :: pad ∧
      slice (build op xid chaddr cs) 236 240 = MAGIC_COOKIE ∧
      header (build op xid chaddr cs) = cs.foldl Call.set (newHeader op xid chaddr) ∧
      300 ≤ (build op xid chaddr cs).length := by
  obtain ⟨hh, hs⟩ := foldl_apply (Builder.holds_new op xid chaddr) cs
  obtain ⟨pad, hf, hl⟩ := (cs.foldl Builder.apply (Builder.new op xid chaddr)).finish_eq
  refine ⟨pad, ?_, ?_, ?_, hl⟩
  · rw [build, hf, List.drop_append_of_le_length hh.length, hh.options, List.nil_append]
  · rw [build, hf, slice_append_of_le hh.length, hh.cookie]
  · rw [build, hf, header_append hh.length, hs, header_new]

namespace Parsed

/-- A message built by any calls is read back: its header is what the last call for each field set, and each option
is all the values added for its code, joined in order. Of any bytes, what is read is the header and options whose
values are pieces of those bytes joined. -/
theorem fromBytes_build : (∀ (op : UInt8) (xid : BitVec 32) (chaddr : MacAddr) (cs : List Call), Plain cs →
      fromBytes (build op xid chaddr cs) =
          some ((cs.foldl Call.set (newHeader op xid chaddr)).withOptions (added cs)) ∧
        ∀ code, (options (build op xid chaddr cs)).lookup code = added cs code) ∧
    ∀ (b : Bytes) (p : Parsed), fromBytes b = some p → 244 ≤ b.length ∧
      ∃ get : UInt8 → Option Bytes, p = (header b).withOptions get ∧ ∀ code d, get code = some d → Within b d := by
  refine ⟨fun op xid chaddr cs h => ?_, fun b p hp => ?_⟩
  · obtain ⟨pad, hb, hc, hh, hl⟩ := build_eq op xid chaddr cs
    have ho : ∀ code, (options (build op xid chaddr cs)).lookup code = added cs code := lookup_options_of_drop h hb
    refine ⟨?_, ho⟩
    rw [fromBytes_eq, if_pos ⟨by omega, hc⟩, hh]
    simp only [ho]
  · rw [fromBytes_eq] at hp
    split_ifs at hp with hb
    cases hp
    exact ⟨hb.1, _, rfl, within_options b⟩

theorem fromBytes_build_long : ∃ p, fromBytes (build 1 7 ⟨[2, 0, 0, 0, 0, 1], rfl⟩ [.messageType 1,
      .option 12 (List.replicate 300 65), .ciaddr 0x0a000002, .u32Option OPT_LEASE_TIME 3600, .option 12 [66]]) =
        some p ∧ p.msgType = 1 ∧ p.ciaddr = 0x0a000002 ∧ p.leaseTime = some 3600 ∧
      (options (build 1 7 ⟨[2, 0, 0, 0, 0, 1], rfl⟩ [.messageType 1, .option 12 (List.replicate 300 65),
        .ciaddr 0x0a000002, .u32Option OPT_LEASE_TIME 3600, .option 12 [66]])).lookup 12 =
        some (List.replicate 300 65 ++ [66]) := by
  obtain ⟨hp, ho⟩ := fromBytes_build.1 1 7 ⟨[2, 0, 0, 0, 0, 1], rfl⟩ [.messageType 1,
    .option 12 (List.replicate 300 65), .ciaddr 0x0a000002, .u32Option OPT_LEASE_TIME 3600, .option 12 [66]] (by
      intro code data hm
      simp only [Call.messageType, Call.u32Option, List.mem_cons, List.not_mem_nil, or_false, Call.option.injEq,
        reduceCtorEq, false_or] at hm
      rcases hm with ⟨rfl, -⟩ | ⟨rfl, -⟩ | ⟨rfl, -⟩ | ⟨rfl, -⟩ <;> decide)
  exact ⟨_, hp, rfl, rfl, rfl, (ho 12).trans rfl⟩

end Parsed

end PktKit.Dhcp.Wire
