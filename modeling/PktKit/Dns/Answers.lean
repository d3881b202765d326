import PktKit.Dns.Names

/-! # What a DNS response answers

The answer section of a message as records with the names that own them, the names a question leads to through the
CNAME records, and that the parser returns exactly the addresses of those.
-/

namespace PktKit.Dns
open Foundations

/-! ## The query -/

theorem mapM_encodeLabel {n : Name} {parts : List Bytes} (h : n.mapM encodeLabel = some parts) :
    n.Legal ∧ parts.flatten ++ [0] = n.wire := by
  induction n generalizing parts with
  | nil =>
    cases h
    exact ⟨by simp [Name.Legal], rfl⟩
  | cons l n ih =>
    rw [List.mapM_cons] at h
    obtain ⟨part, hpart, h⟩ := Option.bind_eq_some_iff.mp h
    obtain ⟨rest, hrest, h⟩ := Option.bind_eq_some_iff.mp h
    cases h
    obtain ⟨hlegal, hwire⟩ := ih hrest
    unfold encodeLabel at hpart
    split_ifs at hpart with hl
    cases hpart
    obtain ⟨hne, hlen⟩ := not_or.mp hl
    refine ⟨fun l' hl' => ?_, ?_⟩
    · rcases List.mem_cons.mp hl' with rfl | hmem
      · exact ⟨List.length_pos_of_ne_nil hne, not_lt.mp hlen⟩
      · exact hlegal l' hmem
    · rw [Name.wire_cons, ← hwire]
      simp

theorem encodeName_eq_some {name buf : Bytes} (h : encodeName name = some buf) :
    Name.Legal (labels name) ∧ buf = Name.wire (labels name) ∧ buf.length ≤ 255 := by
  obtain ⟨parts, hparts, h⟩ := Option.bind_eq_some_iff.mp h
  obtain ⟨hlegal, hwire⟩ := mapM_encodeLabel hparts
  dsimp only at h
  split_ifs at h with hlen
  cases h
  exact ⟨hlegal, hwire, hlen⟩

/-- A name written out stands where it was written. -/
theorem nameAt_wire {data rest : Bytes} {n : Name} (hn : n.Legal) {off : ℕ} (limit : ℕ)
    (h : data.drop off = n.wire ++ rest) : NameAt data limit off n 0 (off + n.wire.length) := by
  induction n generalizing off with
  | nil =>
    apply NameAt.root
    rw [← List.head?_drop, h]
    rfl
  | cons l n ih =>
    have hl := hn l List.mem_cons_self
    rw [Name.wire_cons, List.cons_append, List.cons_append, List.append_assoc] at h
    have hdrop : data.drop (off + 1) = l ++ (Name.wire n ++ rest) := by
      rw [← List.drop_drop, h]
      rfl
    have hnext : data.drop (off + 1 + l.length) = Name.wire n ++ rest := by
      rw [← List.drop_drop, hdrop, List.drop_left]
    have hstop : off + (Name.wire (l :: n)).length = off + 1 + l.length + (Name.wire n).length := by
      rw [Name.length_wire_cons]
      omega
    rw [hstop]
    refine .label ?_ hl ?_ (ih hn.tail hnext)
    · rw [← List.head?_drop, h]
      rfl
    · rw [slice, hdrop, Nat.add_sub_cancel_left, List.take_left]

structure Asks (query : Bytes) (name : Name) (rtype : RecordType) : Prop where
  name : HasName query 12 name (query.length - 4)
  qtype : Packet.be16 query (query.length - 4) = rtype.qtype
  length : 17 ≤ query.length

theorem asks_of_buildQuery {id : BitVec 16} {name query : Bytes} {rtype : RecordType}
    (h : buildQuery id name rtype = some query) : Asks query (labels name) rtype := by
  obtain ⟨qname, hname, rfl⟩ := Option.map_eq_some_iff.mp h
  obtain ⟨hlegal, rfl, hlen⟩ := encodeName_eq_some hname
  have hpos := Name.length_wire_pos (labels name)
  -- The header, the name, and its type and class.
  obtain ⟨pre, hpre, hquery⟩ : ∃ pre : Bytes, pre.length = 12 ∧
      be16Bytes id.toNat ++ [1, 0] ++ be16Bytes 1 ++ be16Bytes 0 ++ be16Bytes 0 ++ be16Bytes 0 ++
        Name.wire (labels name) ++ be16Bytes rtype.qtype ++ be16Bytes 1 =
      pre ++ (Name.wire (labels name) ++ (be16Bytes rtype.qtype ++ be16Bytes 1)) :=
    ⟨be16Bytes id.toNat ++ [1, 0] ++ be16Bytes 1 ++ be16Bytes 0 ++ be16Bytes 0 ++ be16Bytes 0, rfl, by
      simp only [List.append_assoc]⟩
  rw [hquery]
  have hlength : (pre ++ (Name.wire (labels name) ++ (be16Bytes rtype.qtype ++ be16Bytes 1))).length =
      12 + (Name.wire (labels name)).length + 4 := by
    simp [hpre]
    omega
  have hstop : 12 + (Name.wire (labels name)).length + 4 - 4 = 12 + (Name.wire (labels name)).length := by omega
  refine ⟨?_, ?_, by omega⟩
  · rw [hlength, hstop]
    exact ⟨0, nameAt_wire hlegal 12 (by rw [← hpre, List.drop_left]), Nat.zero_le _, hlen⟩
  · rw [hlength, hstop, ← List.append_assoc]
    exact be16_be16Bytes (by simp [hpre]) (by cases rtype <;> decide)

/-! ## The answer section -/

/-- An answer record, with the name that owns it. -/
structure Record where
  owner : Name
  rtype : ℕ
  cls : ℕ
  start : ℕ
  stop : ℕ

def Record.rr (r : Record) : Rr := ⟨r.owner.fold.wire, r.rtype, r.cls, r.start, r.stop⟩

/-- So many records stand one after the other from `off` on. -/
inductive Section (data : Bytes) : (count off : ℕ) → List Record → Prop
  | nil {off : ℕ} : Section data 0 off []
  | cons {n off o : ℕ} {owner : Name} {rest : List Record} (hn : HasName data off owner o)
    (hl : o + 10 + Packet.be16 data (o + 8) ≤ data.length)
    (hrest : Section data n (o + 10 + Packet.be16 data (o + 8)) rest) :
    Section data (n + 1) off (⟨owner, Packet.be16 data o, Packet.be16 data (o + 2), o + 10,
      o + 10 + Packet.be16 data (o + 8)⟩ :: rest)

variable {data : Bytes} {count off : ℕ} {records : List Record}

theorem Section.legal (h : Section data count off records) : ∀ r ∈ records, r.owner.Legal := by
  induction h with
  | nil => simp
  | cons hn _ _ ih =>
    intro r hr
    rcases List.mem_cons.mp hr with rfl | hmem
    · exact hn.legal
    · exact ih r hmem

def kept (records : List Record) : List Rr := (records.filter fun r => r.cls = CLASS_IN).map Record.rr

theorem kept_cons (r : Record) : kept (r :: records) = if r.rr.cls = CLASS_IN then r.rr :: kept records else
    kept records := by
  by_cases hc : r.cls = CLASS_IN <;> simp [kept, Record.rr, hc]

theorem readRecords_of_section (h : Section data count off records) :
    readRecords data count off = .ok (kept records) := by
  induction h with
  | nil => rfl
  | cons hn hl hrest ih =>
    have hrec := readName_of_hasName hn
    have h10 : ¬ data.length < _ + 10 := not_lt.mpr ((Nat.le_add_right _ _).trans hl)
    rw [readRecords, readRecord, hrec]
    dsimp only
    rw [if_neg h10, if_neg (not_lt.mpr hl)]
    simp only [Except.bind, ih, Except.map, kept_cons]
    rfl

theorem readRecord_eq_ok {rr : Rr} (h : readRecord data off = .ok rr) : ∃ owner o, HasName data off owner o ∧
    o + 10 + Packet.be16 data (o + 8) ≤ data.length ∧
    rr = Record.rr ⟨owner, Packet.be16 data o, Packet.be16 data (o + 2), o + 10,
      o + 10 + Packet.be16 data (o + 8)⟩ := by
  rw [readRecord] at h
  cases hname : readName data off with
  | none =>
    rw [hname] at h
    cases h
  | some v =>
    obtain ⟨w, o⟩ := v
    obtain ⟨owner, hn, rfl⟩ := readName_eq_some.mp hname
    rw [hname] at h
    dsimp only at h
    split_ifs at h with h10 hl
    cases h
    exact ⟨owner, o, hn, not_lt.mp hl, rfl⟩

theorem section_of_readRecords {rs : List Rr} (h : readRecords data count off = .ok rs) :
    ∃ records, Section data count off records ∧ rs = kept records := by
  induction count generalizing off rs with
  | zero =>
    cases h
    exact ⟨[], .nil, rfl⟩
  | succ n ih =>
    rw [readRecords] at h
    cases hrec : readRecord data off with
    | error e =>
      rw [hrec] at h
      cases h
    | ok rr =>
      rw [hrec] at h
      cases hrest : readRecords data n rr.stop with
      | error e =>
        simp only [Except.bind, hrest] at h
        cases h
      | ok rest =>
        simp only [Except.bind, hrest] at h
        cases h
        obtain ⟨owner, o, hn, hl, rfl⟩ := readRecord_eq_ok hrec
        obtain ⟨records, hs, rfl⟩ := ih hrest
        exact ⟨_, .cons hn hl hs, (kept_cons _).symm⟩

/-! ## The names a question leads to -/

def Leads (data : Bytes) (records : List Record) (a b : Name) : Prop :=
  ∃ r ∈ records, r.cls = CLASS_IN ∧ r.rtype = TYPE_CNAME ∧ r.owner.fold = a ∧ ∃ n,
    HasName data r.start n r.stop ∧ n.fold = b

/-- The names reached from the question's. -/
abbrev Reached (data : Bytes) (records : List Record) : Name → Name → Prop :=
  Relation.ReflTransGen (Leads data records)

theorem mem_kept {rr : Rr} : rr ∈ kept records ↔ ∃ r ∈ records, r.cls = CLASS_IN ∧ r.rr = rr := by
  simp [kept, and_assoc]

theorem followNames_sound {names names' : List Bytes} {q : Name} (hlegal : ∀ r ∈ records, r.owner.Legal)
    (hnames : ∀ w ∈ names, ∃ m : Name, m.Legal ∧ w = m.wire ∧ Reached data records q m)
    (h : followNames data (kept records) names = .ok names') :
    ∀ w ∈ names', ∃ m : Name, m.Legal ∧ w = m.wire ∧ Reached data records q m := by
  fun_induction followNames data (kept records) names with
  | case1 names hn =>
    cases h
    exact hnames
  | case2 => cases h
  | case3 =>
    cases h
    exact hnames
  | case4 => cases h
  | case5 => cases h
  | case6 =>
    cases h
    exact hnames
  | case7 names hn last hlast r hfind target stop hread hstop hnew ih =>
    apply ih _ h
    intro w hw
    rcases List.mem_append.mp hw with hw | hw
    · exact hnames w hw
    obtain rfl := List.mem_singleton.mp hw
    obtain ⟨m, hm, rfl, hreach⟩ := hnames last (List.mem_of_getLast? hlast)
    obtain ⟨r, hr, hcls, rfl⟩ := mem_kept.mp (List.mem_of_find?_eq_some hfind)
    have hpass := List.find?_some hfind
    obtain ⟨htype, howner⟩ : r.rtype = TYPE_CNAME ∧ r.owner.fold.wire = m.wire := of_decide_eq_true hpass
    obtain ⟨n, hname, rfl⟩ := readName_eq_some.mp hread
    have hfold : r.owner.fold = m := Name.wire_injective (hlegal r hr).fold hm howner
    have hs : stop = r.stop := not_not.mp hstop
    have hname' : HasName data r.start n r.stop := hs ▸ hname
    exact ⟨n.fold, hname.legal.fold, rfl, hreach.tail ⟨r, hr, hcls, htype, hfold, n, hname', rfl⟩⟩

/-- A section whose CNAME records are well formed, with at most one for each owner. -/
structure Orderly (data : Bytes) (records : List Record) : Prop where
  targets : ∀ r ∈ records, r.cls = CLASS_IN → r.rtype = TYPE_CNAME → ∃ n, HasName data r.start n r.stop
  single : ∀ r ∈ records, ∀ r' ∈ records, r.cls = CLASS_IN → r.rtype = TYPE_CNAME → r'.cls = CLASS_IN →
    r'.rtype = TYPE_CNAME → r.owner.fold = r'.owner.fold → r = r'

theorem Orderly.functional (h : Orderly data records) {a b b' : Name} (hb : Leads data records a b)
    (hb' : Leads data records a b') : b = b' := by
  obtain ⟨r, hr, hcls, htype, rfl, n, hn, rfl⟩ := hb
  obtain ⟨r', hr', hcls', htype', howner, n', hn', rfl⟩ := hb'
  obtain rfl := h.single r hr r' hr' hcls htype hcls' htype' howner.symm
  exact (hn.unique hn').1

/-- The names followed so far: each leads to the next, and nowhere else. -/
structure Chain (data : Bytes) (records : List Record) (q : Name) (chain : List Name) : Prop where
  legal : ∀ m ∈ chain, m.Legal
  nodup : chain.Nodup
  first : q ∈ chain
  reached : ∀ m ∈ chain, Reached data records q m
  closed : ∀ m ∈ chain.dropLast, ∀ b, Leads data records m b → b ∈ chain

theorem Chain.all {q : Name} {chain : List Name} (h : Chain data records q chain)
    (hclosed : ∀ m ∈ chain, ∀ b, Leads data records m b → b ∈ chain) {m : Name} (hm : Reached data records q m) :
    m ∈ chain := by
  induction hm with
  | refl => exact h.first
  | tail _ hlead ih => exact hclosed _ ih _ hlead

theorem Chain.all_of_length {q : Name} {chain others : List Name} (h : Chain data records q chain)
    (hlen : MAX_CNAME_HOPS < chain.length) (hothers : others.length ≤ MAX_CNAME_HOPS)
    (hall : ∀ m, Reached data records q m → m = q ∨ m ∈ others) {m : Name} (hm : Reached data records q m) :
    m ∈ chain := by
  by_contra hn
  have hsub : (m :: chain) ⊆ q :: others := by
    intro m' hm'
    have hreach : Reached data records q m' := by
      rcases List.mem_cons.mp hm' with rfl | hmem
      · exact hm
      · exact h.reached m' hmem
    exact List.mem_cons.mpr (hall m' hreach)
  have hle := ((List.nodup_cons.mpr ⟨hn, h.nodup⟩).subperm hsub).length_le
  simp only [List.length_cons] at hle
  omega

theorem mem_or_last {α : Type*} {l : List α} {last a : α} (hl : l.getLast? = some last) (ha : a ∈ l) :
    a ∈ l.dropLast ∨ a = last := by
  rw [← List.dropLast_append_getLast? last hl] at ha
  simpa using ha

theorem followNames_complete {q : Name} {chain others : List Name} (ho : Orderly data records)
    (hlegal : ∀ r ∈ records, r.owner.Legal) (h : Chain data records q chain)
    (hothers : others.length ≤ MAX_CNAME_HOPS) (hall : ∀ m, Reached data records q m → m = q ∨ m ∈ others) :
    ∃ names, followNames data (kept records) (chain.map Name.wire) = .ok names ∧
      ∀ m, Reached data records q m → m.wire ∈ names := by
  induction hfuel : MAX_CNAME_HOPS + 1 - chain.length generalizing chain with
  | zero =>
    have hlen : MAX_CNAME_HOPS < chain.length := by omega
    refine ⟨chain.map Name.wire, ?_, fun m hm => List.mem_map_of_mem (h.all_of_length hlen hothers hall hm)⟩
    rw [followNames, dif_pos (by simpa using hlen)]
  | succ fuel ih =>
    have hlen : ¬ MAX_CNAME_HOPS < (chain.map Name.wire).length := by
      rw [List.length_map]
      omega
    obtain ⟨last, hlast⟩ : ∃ last, chain.getLast? = some last :=
      Option.isSome_iff_exists.mp (by simpa using List.ne_nil_of_mem h.first)
    have hlast' : (chain.map Name.wire).getLast? = some last.wire := by simp [hlast]
    have hmem : last ∈ chain := List.mem_of_getLast? hlast
    rw [followNames, dif_neg hlen, hlast']
    dsimp only
    cases hfind : (kept records).find? fun r => decide (r.rtype = TYPE_CNAME ∧ r.owner = last.wire) with
    | none =>
      refine ⟨_, rfl, fun m hm => List.mem_map_of_mem (h.all ?_ hm)⟩
      intro a ha b hb
      rcases mem_or_last hlast ha with ha | rfl
      · exact h.closed a ha b hb
      obtain ⟨r, hr, hcls, htype, rfl, _⟩ := hb
      have hno := List.find?_eq_none.mp hfind r.rr (mem_kept.mpr ⟨r, hr, hcls, rfl⟩)
      exact absurd (decide_eq_true ⟨htype, rfl⟩) hno
    | some rr =>
      obtain ⟨r, hr, hcls, rfl⟩ := mem_kept.mp (List.mem_of_find?_eq_some hfind)
      have hpass := List.find?_some hfind
      obtain ⟨htype, howner⟩ : r.rtype = TYPE_CNAME ∧ r.owner.fold.wire = last.wire := of_decide_eq_true hpass
      have hfold : r.owner.fold = last := Name.wire_injective (hlegal r hr).fold (h.legal last hmem) howner
      obtain ⟨n, hn⟩ := ho.targets r hr hcls htype
      have hlead : Leads data records last n.fold := ⟨r, hr, hcls, htype, hfold, n, hn, rfl⟩
      have hread : readName data r.rr.start = some (n.fold.wire, r.stop) := readName_of_hasName hn
      have hnext : ∀ a ∈ chain, ∀ b, Leads data records a b → b ∈ chain ∨ b = n.fold := by
        intro a ha b hb
        rcases mem_or_last hlast ha with ha | rfl
        · exact .inl (h.closed a ha b hb)
        · exact .inr (ho.functional hb hlead)
      dsimp only
      rw [hread]
      dsimp only
      have hstop : ¬ (r.stop ≠ r.rr.stop) := not_not.mpr rfl
      rw [if_neg hstop]
      by_cases hin : n.fold ∈ chain
      · rw [if_pos (List.mem_map_of_mem hin)]
        refine ⟨_, rfl, fun m hm => List.mem_map_of_mem (h.all ?_ hm)⟩
        intro a ha b hb
        rcases hnext a ha b hb with hb | rfl
        · exact hb
        · exact hin
      · have hnot : n.fold.wire ∉ chain.map Name.wire := by
          rw [List.mem_map]
          rintro ⟨m, hm, heq⟩
          exact hin (Name.wire_injective (h.legal m hm) hn.legal.fold heq ▸ hm)
        rw [if_neg hnot]
        have hchain : Chain data records q (chain ++ [n.fold]) := by
          refine ⟨?_, ?_, List.mem_append_left _ h.first, ?_, ?_⟩
          · intro m hm
            rcases List.mem_append.mp hm with hm | hm
            · exact h.legal m hm
            · exact List.mem_singleton.mp hm ▸ hn.legal.fold
          · rw [List.nodup_append]
            refine ⟨h.nodup, List.nodup_singleton _, ?_⟩
            rintro a ha b hb rfl
            exact hin (List.mem_singleton.mp hb ▸ ha)
          · intro m hm
            rcases List.mem_append.mp hm with hm | hm
            · exact h.reached m hm
            · exact List.mem_singleton.mp hm ▸ (h.reached last hmem).tail hlead
          · intro m hm b hb
            rw [List.dropLast_concat] at hm
            rcases hnext m hm b hb with hb | rfl
            · exact List.mem_append_left _ hb
            · exact List.mem_append_right _ (List.mem_singleton_self _)
        have hres := ih hchain (by rw [List.length_append, List.length_singleton]; omega)
        rwa [List.map_append, List.map_singleton] at hres

/-! ## The response -/

/-- A response with the query's id that repeats its question, but for the case of the name. -/
structure Repeats (data query : Bytes) : Prop where
  length : 12 ≤ data.length ∧ query.length ≤ data.length
  id : data.take 2 = query.take 2
  response : 0x8000 ≤ Packet.be16 data 2
  one : slice data 4 6 = [0, 1]
  name : (slice data 12 (query.length - 4)).map toAsciiLowercase =
    (slice query 12 (query.length - 4)).map toAsciiLowercase
  question : slice data (query.length - 4) query.length = query.drop (query.length - 4)

def RecordType.address : RecordType → Bytes → Option IpAddr
  | .a, rdata => if rdata.length = 4 then some (.v4 rdata) else none
  | .aaaa, rdata => if rdata.length = 16 then some (.v6 rdata) else none

theorem address_rr {r : Record} {t : RecordType} (h : r.rtype = t.qtype) :
    r.rr.address data = t.address (slice data r.start r.stop) := by
  cases t with
  | a => simp [Rr.address, Record.rr, RecordType.address, h, RecordType.qtype]
  | aaaa => simp [Rr.address, Record.rr, RecordType.address, h, RecordType.qtype]

theorem questionMatches_iff {query : Bytes} {q : Name} {t : RecordType} (hq : Asks query q t) :
    questionMatches data query = true ↔ 12 ≤ data.length ∧ query.length ≤ data.length ∧ slice data 4 6 = [0, 1] ∧
      (slice data 12 (query.length - 4)).map toAsciiLowercase =
        (slice query 12 (query.length - 4)).map toAsciiLowercase ∧
      slice data (query.length - 4) query.length = query.drop (query.length - 4) := by
  have hlen := hq.length
  have htake : (slice data 12 query.length).take (query.length - 4 - 12) = slice data 12 (query.length - 4) := by
    rw [slice, slice, List.take_take, min_eq_left (by omega)]
  have hdrop : (slice data 12 query.length).drop (query.length - 4 - 12) =
      slice data (query.length - 4) query.length := by
    rw [slice, slice, List.drop_take, List.drop_drop,
      show query.length - 12 - (query.length - 4 - 12) = query.length - (query.length - 4) by omega,
      show 12 + (query.length - 4 - 12) = query.length - 4 by omega]
  have hqdrop : (query.drop 12).drop (query.length - 4 - 12) = query.drop (query.length - 4) := by
    rw [List.drop_drop]
    congr 1
    omega
  have hread := readName_of_hasName hq.name
  unfold questionMatches
  rw [hread]
  dsimp only
  rw [htake, hdrop, hqdrop]
  constructor
  · intro h
    split_ifs at h with h1 h2
    obtain ⟨hd, hn⟩ := not_or.mp h1
    obtain ⟨_, hone⟩ := not_or.mp hn
    rw [Bool.and_eq_true, decide_eq_true_iff, decide_eq_true_iff] at h
    exact ⟨not_lt.mp hd, not_lt.mp h2, not_not.mp hone, h.1, h.2⟩
  · rintro ⟨hd, hl, hone, hname, hrest⟩
    rw [if_neg (by simp [hone]; omega), if_neg (not_lt.mpr hl), Bool.and_eq_true, decide_eq_true_iff,
      decide_eq_true_iff]
    exact ⟨hname, hrest⟩

/-- A response is read once it repeats the question and reports no error. -/
theorem parseResponse_eq {query : Bytes} {q : Name} {t : RecordType} (hq : Asks query q t)
    (hr : Repeats data query)
    (hcode : Packet.be16 data 2 % 16 = 0) : parseResponse data query = readAnswers data query := by
  have hlen := hq.length
  have hmatch := (questionMatches_iff hq).mpr ⟨hr.length.1, hr.length.2, hr.one, hr.name, hr.question⟩
  rw [parseResponse, if_neg (not_lt.mpr hr.length.1), if_neg (by simp [hr.id]; omega),
    if_neg (not_lt.mpr hr.response), if_neg (by simp [hmatch]), if_neg (not_not.mpr hcode)]

theorem repeats_of_parseResponse {query : Bytes} {q : Name} {t : RecordType} {out : List IpAddr}
    (hq : Asks query q t)
    (h : parseResponse data query = .ok out) : Repeats data query ∧ readAnswers data query = .ok out := by
  unfold parseResponse at h
  split_ifs at h with h1 h2 h3 h4 h5
  obtain ⟨_, hid⟩ := not_or.mp h2
  obtain ⟨hd, hl, hone, hname, hrest⟩ := (questionMatches_iff hq).mp (by simpa using h4)
  exact ⟨⟨⟨hd, hl⟩, not_not.mp hid, not_lt.mp h3, hone, hname, hrest⟩, h⟩

theorem readAnswers_eq {query : Bytes} {q : Name} {t : RecordType} (hq : Asks query q t) :
    readAnswers data query = (readRecords data (Packet.be16 data 6) query.length).bind fun records =>
      (followNames data records [q.fold.wire]).map fun names =>
        (records.filter fun r => decide (r.rtype = t.qtype ∧ r.owner ∈ names)).filterMap (Rr.address data) := by
  have hlen := hq.length
  rw [readAnswers, readName_of_hasName hq.name]
  dsimp only
  rw [if_neg (by omega), hq.qtype, Nat.sub_add_cancel (by omega)]

/-- The answers to a query are exactly those its response gives: of any response they are addresses in CLASS IN records
of the type asked, owned by the name asked about or one reached from it, in a message that repeats the question; and of a
well-formed one that reports no error, all such addresses. -/
theorem answers_exact {id : BitVec 16} {name query : Bytes} {t : RecordType}
    (hq : buildQuery id name t = some query) (data : Bytes) :
    (∀ out, parseResponse data query = .ok out → Repeats data query ∧
      ∃ records, Section data (Packet.be16 data 6) query.length records ∧
        ∀ addr ∈ out, ∃ r ∈ records, r.cls = CLASS_IN ∧ r.rtype = t.qtype ∧
          t.address (slice data r.start r.stop) = some addr ∧
          Reached data records (Name.fold (labels name)) r.owner.fold) ∧
    ∀ (records : List Record) (others : List Name), Repeats data query → Packet.be16 data 2 % 16 = 0 →
      Section data (Packet.be16 data 6) query.length records → Orderly data records →
      others.length ≤ MAX_CNAME_HOPS →
      (∀ m, Reached data records (Name.fold (labels name)) m → m = Name.fold (labels name) ∨ m ∈ others) →
      ∃ out, parseResponse data query = .ok out ∧
        ∀ r ∈ records, ∀ addr, r.cls = CLASS_IN → r.rtype = t.qtype →
          t.address (slice data r.start r.stop) = some addr →
          Reached data records (Name.fold (labels name)) r.owner.fold → addr ∈ out := by
  have hasks := asks_of_buildQuery hq
  have hqlegal : Name.Legal (Name.fold (labels name)) := hasks.name.legal.fold
  refine ⟨fun out hout => ?_, fun records others hr hcode hs ho hothers hall => ?_⟩
  · obtain ⟨hr, hread⟩ := repeats_of_parseResponse hasks hout
    rw [readAnswers_eq hasks] at hread
    cases hrecords : readRecords data (Packet.be16 data 6) query.length with
    | error e =>
      rw [hrecords] at hread
      cases hread
    | ok rs =>
      obtain ⟨records, hs, rfl⟩ := section_of_readRecords hrecords
      rw [hrecords] at hread
      cases hfollow : followNames data (kept records) [(Name.fold (labels name)).wire] with
      | error e =>
        simp only [Except.bind, hfollow] at hread
        cases hread
      | ok names =>
        simp only [Except.bind, hfollow] at hread
        cases hread
        have hnames := followNames_sound (q := Name.fold (labels name)) hs.legal (by
          intro w hw
          exact ⟨_, hqlegal, List.mem_singleton.mp hw, .refl⟩) hfollow
        refine ⟨hr, records, hs, fun addr haddr => ?_⟩
        obtain ⟨rr, hrr, haddr⟩ := List.mem_filterMap.mp haddr
        obtain ⟨hmem, hpass⟩ := List.mem_filter.mp hrr
        obtain ⟨r, hrec, hcls, rfl⟩ := mem_kept.mp hmem
        obtain ⟨htype, hown⟩ : r.rtype = t.qtype ∧ r.owner.fold.wire ∈ names := of_decide_eq_true hpass
        obtain ⟨m, hm, heq, hreach⟩ := hnames _ hown
        rw [address_rr htype] at haddr
        have hfold : r.owner.fold = m := Name.wire_injective (hs.legal r hrec).fold hm heq
        exact ⟨r, hrec, hcls, htype, haddr, hfold ▸ hreach⟩
  · have hchain : Chain data records (Name.fold (labels name)) [Name.fold (labels name)] := by
      refine ⟨?_, List.nodup_singleton _, List.mem_singleton_self _, ?_, by simp⟩
      · exact fun m hm => List.mem_singleton.mp hm ▸ hqlegal
      · exact fun m hm => List.mem_singleton.mp hm ▸ .refl
    obtain ⟨names, hfollow, hnames⟩ := followNames_complete ho hs.legal hchain hothers hall
    refine ⟨((kept records).filter fun r => decide (r.rtype = t.qtype ∧ r.owner ∈ names)).filterMap
      (Rr.address data),
      ?_, fun r hrec addr hcls htype haddr hreach => ?_⟩
    · rw [parseResponse_eq hasks hr hcode, readAnswers_eq hasks, readRecords_of_section hs]
      simp only [Except.bind]
      rw [List.map_singleton] at hfollow
      rw [hfollow]
      rfl
    · refine List.mem_filterMap.mpr ⟨r.rr, List.mem_filter.mpr ⟨mem_kept.mpr ⟨r, hrec, hcls, rfl⟩, ?_⟩, ?_⟩
      · exact decide_eq_true ⟨htype, hnames _ hreach⟩
      · rw [address_rr htype, haddr]

/-- A response with one answer, its owner a pointer to the question in capitals. -/
def sampleResponse : Bytes :=
  [0, 7, 128, 0, 0, 1, 0, 1, 0, 0, 0, 0, 1, 65, 0, 0, 1, 0, 1, 192, 12, 0, 1, 0, 1, 0, 0, 0, 60, 0, 4, 10, 0, 0, 1]

theorem hasName_sample : HasName sampleResponse 19 [[65]] 21 := by
  have hname : NameAt sampleResponse (pointerTarget 192 12) (pointerTarget 192 12) [[65]] 0 15 :=
    .label rfl ⟨by decide, by decide⟩ rfl (.root rfl)
  exact ⟨1, .pointer rfl (by decide) rfl (by decide) hname, by decide, by decide⟩

theorem answers_exact_compressed : ∃ out,
    parseResponse sampleResponse [0, 7, 1, 0, 0, 1, 0, 0, 0, 0, 0, 0, 1, 97, 0, 0, 1, 0, 1] = .ok out ∧
      .v4 [10, 0, 0, 1] ∈ out := by
  have hq : buildQuery 7 [97] .a = some [0, 7, 1, 0, 0, 1, 0, 0, 0, 0, 0, 0, 1, 97, 0, 0, 1, 0, 1] := by decide
  have hlead : ∀ a b, ¬ Leads sampleResponse [⟨[[65]], 1, 1, 31, 35⟩] a b := by
    rintro a b ⟨r, hr, _, htype, _⟩
    obtain rfl := List.mem_singleton.mp hr
    exact absurd htype (by decide)
  obtain ⟨out, hout, hall⟩ := (answers_exact hq sampleResponse).2 [⟨[[65]], 1, 1, 31, 35⟩] []
    ⟨⟨by decide, by decide⟩, rfl, by decide, by decide, by decide, by decide⟩ (by decide)
    (.cons hasName_sample (by decide) .nil)
    ⟨fun r hr _ htype => absurd htype (by obtain rfl := List.mem_singleton.mp hr; decide),
      fun r hr r' hr' _ _ _ _ _ => (List.mem_singleton.mp hr).trans (List.mem_singleton.mp hr').symm⟩
    (by decide) (fun m hm => by
      cases hm with
      | refl => exact .inl rfl
      | tail _ h => exact absurd h (hlead _ _))
  exact ⟨out, hout, hall _ (List.mem_singleton_self _) _ rfl rfl rfl .refl⟩

end PktKit.Dns
