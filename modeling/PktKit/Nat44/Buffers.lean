import PktKit.Nat44.Defrag

/-! # What the reassembler holds

However fragments come, the datagrams held stay within their number and their bytes, each of them is
a row of fragments that do not overlap, all from one zone, and room is made at the cost of other
datagrams.
-/

namespace PktKit.Nat44
open Foundations

/-- What a packet brings to the reassembler: the datagram it is of and its part of it; `none` if it is
whole or malformed. -/
def fragmentOf (zone : ℕ) (p : Packet) : Option (FragKey × FragData) :=
  let ihl := p.ipv4HeaderLen
  let payload := slice p ihl p.ipv4TotalLen
  if p.length < 20 ∨ (!p.ipv4MoreFragments ∧ p.ipv4FragmentOffset = 0) ∨
      (ihl < 20 ∨ p.ipv4TotalLen < ihl ∨ p.length < p.ipv4TotalLen) ∨
      (p.ipv4MoreFragments ∧ payload.length % 8 ≠ 0) ∨ payload = [] ∨
      65535 < ihl + (p.ipv4FragmentOffset + payload.length) then none
  else some (⟨zone, p.src, p.dst, p.be16 4, p.byte 9⟩,
    ⟨p.ipv4FragmentOffset, payload, if p.ipv4FragmentOffset = 0 then some (p.take ihl) else none⟩)

/-! ## One datagram -/

namespace FragEntry

/-- The fragments are in order and within the datagram, and the sums kept are theirs. -/
structure Sound (e : FragEntry) : Prop where
  charge : e.charge = (e.frags.map FragData.charge).sum
  sorted : Sorted e.frags
  pos : ∀ f ∈ e.frags, f.offset < f.stop
  covered : e.covered = (e.frags.map (·.data.length)).sum
  stop_le : ∀ total ∈ e.total, ∀ f ∈ e.frags, f.stop ≤ total

variable {e e' : FragEntry} {f : FragData} {mf df : Bool} {stop totalLen : ℕ} {tos : UInt8}

theorem sound_new (now : Instant) : Sound { created := now } where
  charge := rfl
  sorted := .nil
  pos := by simp
  covered := rfl
  stop_le := by simp

theorem noteEnd_frags (h : e.noteEnd mf stop = some e') :
    e'.created = e.created ∧ e'.frags = e.frags ∧ e'.charge = e.charge ∧ e'.covered = e.covered := by
  unfold noteEnd at h
  split at h
  · exact Option.some.inj h ▸ ⟨rfl, rfl, rfl, rfl⟩
  split at h
  · cases h
  · exact Option.some.inj h ▸ ⟨rfl, rfl, rfl, rfl⟩

theorem frags_insert : (e.insert f totalLen df tos).frags =
    e.frags.takeWhile (·.offset < f.offset) ++ f :: e.frags.dropWhile (·.offset < f.offset) := by
  simp only [insert, split, List.span_eq_takeWhile_dropWhile]

theorem frags_insert_perm (e : FragEntry) (f : FragData) (totalLen : ℕ) (df : Bool) (tos : UInt8) :
    (e.insert f totalLen df tos).frags.Perm (f :: e.frags) := by
  rw [frags_insert]
  refine List.perm_middle.trans (.cons f ?_)
  rw [List.takeWhile_append_dropWhile]

/-- A fragment that lies within the datagram beside the others is taken in. -/
theorem Sound.insert (h : e.Sound) (hnote : e.noteEnd mf f.stop = some e') (hpast : e'.pastEnd f.stop = false)
    (hover : e'.overlaps f = false) (hf : f.offset < f.stop) : (e'.insert f totalLen df tos).Sound := by
  obtain ⟨-, hfrags, hcharge, hcovered⟩ := noteEnd_frags hnote
  have hsorted : Sorted e'.frags := hfrags ▸ h.sorted
  have hpos : ∀ g ∈ e'.frags, g.offset < g.stop := hfrags ▸ h.pos
  have hperm := frags_insert_perm e' f totalLen df tos
  constructor
  · rw [(hperm.map _).sum_eq, List.map_cons, List.sum_cons, hfrags, ← h.charge, ← hcharge, Nat.add_comm]
    rfl
  · rw [frags_insert]
    exact hsorted.insert hpos ((overlaps_eq_false hsorted hpos hf).mp hover) hf
  · intro g hg
    rcases List.mem_cons.mp (hperm.subset hg) with rfl | hg
    · exact hf
    · exact hpos g hg
  · rw [(hperm.map _).sum_eq, List.map_cons, List.sum_cons, hfrags, ← h.covered, ← hcovered, Nat.add_comm]
    rfl
  · intro total htotal g hg
    change total ∈ e'.total at htotal
    rw [pastEnd, Option.mem_def.mp htotal, Option.any_some, Bool.or_eq_false_iff, decide_eq_false_iff_not,
      not_lt] at hpast
    rcases List.mem_cons.mp (hperm.subset hg) with rfl | hg
    · exact hpast.1
    · obtain ⟨last, hl⟩ := Option.isSome_iff_exists.mp (List.getLast?_isSome.mpr (List.ne_nil_of_mem hg))
      have hle : last.stop ≤ total := by simpa [hl] using hpast.2
      exact (hsorted.stop_le_getLast hpos hl hg).trans hle

end FragEntry

/-! ## Dropping datagrams -/

namespace Defragger

def Balanced (d : Defragger) : Prop := d.charge = d.entries.total FragEntry.charge

/-- Datagrams were dropped, with their charges, and nothing else. -/
structure Prunes (d d' : Defragger) : Prop where
  lookup : ∀ k e, d'.entries.lookup k = some e → d.entries.lookup k = some e
  length_le : d'.entries.entries.length ≤ d.entries.entries.length
  balanced : d.Balanced → d'.Balanced
  charge_le : d'.charge ≤ d.charge

variable {d d' d'' : Defragger} {k k' : FragKey} {e e' : FragEntry} {f : FragData} {n : ℕ} {now : Instant}

theorem Prunes.refl (d : Defragger) : Prunes d d := ⟨fun _ _ h => h, le_rfl, id, le_rfl⟩

theorem Prunes.trans (h : Prunes d d') (h' : Prunes d' d'') : Prunes d d'' where
  lookup k e he := h.lookup k e (h'.lookup k e he)
  length_le := h'.length_le.trans h.length_le
  balanced hb := h'.balanced (h.balanced hb)
  charge_le := h'.charge_le.trans h.charge_le

theorem dropEntry_of_none (h : d.entries.lookup k = none) : d.dropEntry k = d := by rw [dropEntry, h]

theorem dropEntry_of_some (h : d.entries.lookup k = some e) :
    d.dropEntry k = ⟨d.entries.erase k, d.charge - e.charge⟩ := by rw [dropEntry, h]

theorem prunes_dropEntry (d : Defragger) (k : FragKey) : Prunes d (d.dropEntry k) := by
  cases he : d.entries.lookup k with
  | none =>
    rw [dropEntry_of_none he]
    exact .refl d
  | some e =>
    rw [dropEntry_of_some he]
    constructor
    · intro k' e' h
      rw [Table.lookup_erase_eq] at h
      split at h
      · cases h
      · exact h
    · exact (Nat.le_succ _).trans (Table.length_erase (by rw [he]; rfl)).le
    · intro hb
      have htotal := Table.total_erase (f := FragEntry.charge) he
      unfold Balanced at hb ⊢
      dsimp only
      omega
    · exact Nat.sub_le _ _

theorem lookup_dropEntry : (d.dropEntry k).entries.lookup k' = if k' = k then none else d.entries.lookup k' := by
  cases he : d.entries.lookup k with
  | none =>
    rw [dropEntry_of_none he]
    split
    · next h => rw [h, he]
    · rfl
  | some e => rw [dropEntry_of_some he, Table.lookup_erase_eq]

theorem prunes_expire (d : Defragger) (now : Instant) : Prunes d (d.expire now) where
  lookup k e h := by
    rw [expire, Table.lookup_retain] at h
    exact (Option.filter_eq_some_iff.mp h).1
  length_le := Table.length_retain_le
  balanced hb := by
    have htotal := Table.total_retain (t := d.entries) (f := FragEntry.charge)
      (p := fun _ e => now - e.created < DEFRAG_TIMEOUT)
    unfold Balanced at hb ⊢
    change d.charge - Table.total (d.entries.retain fun _ e => !decide (now - e.created < DEFRAG_TIMEOUT))
      FragEntry.charge =
      Table.total (d.entries.retain fun _ e => decide (now - e.created < DEFRAG_TIMEOUT)) FragEntry.charge
    omega
  charge_le := Nat.sub_le _ _

/-- The oldest other datagram is dropped, if there is one. -/
theorem evictOldest_spec (d : Defragger) (k : FragKey) :
    (d.evictOldest k = none ∧ ∀ k' e, d.entries.lookup k' = some e → k' = k) ∨
      ∃ k' e, k' ≠ k ∧ d.entries.lookup k' = some e ∧ d.evictOldest k = some (d.dropEntry k') := by
  unfold evictOldest
  cases hmin : (d.entries.entries.filter (·.1 ≠ k)).argmin fun e => e.2.created with
  | none =>
    have hnil := List.argmin_eq_none.mp hmin
    refine .inl ⟨rfl, fun k' e he => ?_⟩
    by_contra hne
    have hmem : (⟨k', e⟩ : Sigma fun _ : FragKey => FragEntry) ∈ d.entries.entries.filter (·.1 ≠ k) :=
      List.mem_filter.mpr ⟨Table.lookup_eq_some.mp he, by simpa using hne⟩
    rw [hnil] at hmem
    cases hmem
  | some x =>
    obtain ⟨hmem, hne⟩ := List.mem_filter.mp (List.argmin_mem hmin)
    exact .inr ⟨x.1, x.2, by simpa using hne, Table.lookup_eq_some.mpr hmem, rfl⟩

theorem prunes_evictOldest (h : d.evictOldest k = some d') : Prunes d d' := by
  obtain ⟨x, -, rfl⟩ := Option.map_eq_some_iff.mp h
  exact prunes_dropEntry d x.1

theorem prunes_admitEntry (d : Defragger) (k : FragKey) (now : Instant) : Prunes d (d.admitEntry k now) := by
  have hexpire := prunes_expire d now
  rw [admitEntry]
  split
  · exact .refl d
  simp only
  split
  · cases h : (d.expire now).evictOldest k with
    | none => exact hexpire
    | some d' => exact hexpire.trans (prunes_evictOldest h)
  · exact hexpire

theorem prunes_makeRoom (d : Defragger) (k : FragKey) (n : ℕ) : Prunes d (d.makeRoom k n).2 := by
  induction n generalizing d with
  | zero => exact prunes_dropEntry d k
  | succ n ih =>
    rw [makeRoom]
    split
    · exact .refl d
    split
    · next d' h => exact (prunes_evictOldest h).trans (ih d')
    · exact prunes_dropEntry d k

theorem length_dropEntry (h : d.entries.lookup k = some e) :
    (d.dropEntry k).entries.entries.length + 1 = d.entries.entries.length := by
  rw [dropEntry_of_some h]
  exact Table.length_erase (by rw [h]; rfl)

theorem Balanced.charge_of_lone (hb : d.Balanced) (hk : d.entries.lookup k = some e)
    (hlone : ∀ k' e', d.entries.lookup k' = some e' → k' = k) : d.charge = e.charge := by
  have hempty : (d.entries.erase k).entries = [] := by
    refine Table.entries_eq_nil fun k' => ?_
    rw [Table.lookup_erase_eq]
    split
    · rfl
    · next hne => exact Option.eq_none_iff_forall_ne_some.mpr fun e' he' => hne (hlone k' e' he')
  have htotal := Table.total_erase (f := FragEntry.charge) hk
  have hzero : Table.total (d.entries.erase k) FragEntry.charge = 0 := by
    rw [Table.total, Table.values, hempty]
    rfl
  unfold Balanced at hb
  omega

/-- Room is made at the cost of other datagrams; the datagram itself goes only if it alone is too much. -/
theorem makeRoom_spec (hb : d.Balanced) (hk : d.entries.lookup k = some e) (hn : d.entries.entries.length ≤ n) :
    Prunes d (d.makeRoom k n).2 ∧ (d.makeRoom k n).2.charge ≤ DEFRAG_MAX_BYTES ∧
      ((d.makeRoom k n).1 = true ∧ (d.makeRoom k n).2.entries.lookup k = some e ∨
        (d.makeRoom k n).1 = false ∧ DEFRAG_MAX_BYTES < e.charge) := by
  induction n generalizing d with
  | zero =>
    have hone := length_dropEntry hk
    omega
  | succ n ih =>
    rw [makeRoom]
    by_cases hroom : d.charge ≤ DEFRAG_MAX_BYTES
    · rw [if_pos hroom]
      exact ⟨.refl d, hroom, .inl ⟨rfl, hk⟩⟩
    rw [if_neg hroom]
    rcases evictOldest_spec d k with ⟨hnone, hlone⟩ | ⟨k', e', hne, hk', hsome⟩
    · rw [hnone]
      have hall := hb.charge_of_lone hk hlone
      refine ⟨prunes_dropEntry d k, ?_, .inr ⟨rfl, hall ▸ not_le.mp hroom⟩⟩
      change (d.dropEntry k).charge ≤ DEFRAG_MAX_BYTES
      rw [dropEntry_of_some hk]
      exact (Nat.sub_eq_zero_of_le hall.le).le.trans (Nat.zero_le _)
    · rw [hsome]
      have hprunes := prunes_dropEntry d k'
      have hlength := length_dropEntry hk'
      have hkept : (d.dropEntry k').entries.lookup k = some e := by rw [lookup_dropEntry, if_neg hne.symm, hk]
      obtain ⟨hrest, hcharge, hend⟩ := ih (hprunes.balanced hb) hkept (by omega)
      exact ⟨hprunes.trans hrest, hcharge, hend⟩

theorem prunes_complete (d : Defragger) (k : FragKey) : Prunes d (d.complete k).2 := by
  unfold complete
  split
  · exact .refl d
  split
  · exact .refl d
  split
  · exact .refl d
  split
  · exact prunes_dropEntry d k
  simp only
  split
  · exact prunes_dropEntry d k
  split <;> exact prunes_dropEntry d k

/-! ## Taking a fragment in -/

section Packets

variable {zone : ℕ} {p : Packet}

theorem reassembleAt_of_none (h : fragmentOf zone p = none) :
    (d.reassembleAt zone p now).2 = d ∧ ∀ r m, (d.reassembleAt zone p now).1 ≠ some (r, some m) := by
  unfold fragmentOf at h
  unfold reassembleAt
  grind

theorem reassembleAt_of_some (h : fragmentOf zone p = some (k, f)) :
    d.reassembleAt zone p now =
      d.accept k f p.ipv4MoreFragments p.ipv4DontFragment p.ipv4TotalLen (p.byte 1) now := by
  unfold fragmentOf at h
  unfold reassembleAt
  grind

end Packets

theorem admitEntry_of_some (h : d.entries.lookup k = some e) : d.admitEntry k now = d := by
  rw [admitEntry, h]
  rfl

/-- A new datagram finds room for one more. -/
theorem admitEntry_of_none (now : Instant) (h : d.entries.lookup k = none)
    (hlen : d.entries.entries.length ≤ DEFRAG_MAX_ENTRIES) :
    Prunes d (d.admitEntry k now) ∧ (d.admitEntry k now).entries.entries.length < DEFRAG_MAX_ENTRIES := by
  have hexpire := prunes_expire d now
  rw [admitEntry, h]
  simp only [Option.isSome_none, Bool.false_eq_true, if_false]
  split
  · next hfull =>
    rcases evictOldest_spec (d.expire now) k with ⟨-, hlone⟩ | ⟨k', e', -, hk', hsome⟩
    · have hempty : (d.expire now).entries.entries = [] := by
        refine Table.entries_eq_nil fun k' => Option.eq_none_iff_forall_ne_some.mpr fun e' he' => ?_
        rw [hlone k' e' he'] at he'
        have := hexpire.lookup k e' he'
        rw [h] at this
        cases this
      rw [hempty] at hfull
      exact absurd hfull (by decide)
    · rw [hsome]
      have hlength := length_dropEntry hk'
      have hle := hexpire.length_le
      refine ⟨hexpire.trans (prunes_dropEntry _ k'), ?_⟩
      change ((d.expire now).dropEntry k').entries.entries.length < _
      omega
  · next hfree => exact ⟨hexpire, not_le.mp hfree⟩

/-- The reassembler with a fragment taken in, before room is made for it; `none` if it is refused. -/
def taken (d : Defragger) (k : FragKey) (f : FragData) (mf df : Bool) (totalLen : ℕ) (tos : UInt8)
    (now : Instant) : Option Defragger :=
  match ((d.entries.lookup k).getD { created := now }).noteEnd mf f.stop with
  | none => none
  | some e =>
    if e.pastEnd f.stop then none
    else if e.overlaps f ∨ DEFRAG_MAX_FRAGS ≤ e.frags.length then none
    else some { entries := d.entries.insert k (e.insert f totalLen df tos), charge := d.charge + f.charge }

variable {mf df : Bool} {totalLen : ℕ} {tos : UInt8}

theorem accept_eq (d : Defragger) : (d.accept k f mf df totalLen tos now).2 =
    match (d.admitEntry k now).taken k f mf df totalLen tos now with
    | none => (d.admitEntry k now).dropEntry k
    | some t =>
      let room := t.makeRoom k (t.entries.entries.length + 1)
      if room.1 then (room.2.complete k).2 else room.2 := by
  simp only [accept, taken]
  generalize d.admitEntry k now = a
  cases ((a.entries.lookup k).getD { created := now }).noteEnd mf f.stop with
  | none => rfl
  | some e =>
    simp only
    by_cases hpast : e.pastEnd f.stop = true
    · simp only [if_pos hpast]
    simp only [if_neg hpast]
    by_cases hover : e.overlaps f = true ∨ DEFRAG_MAX_FRAGS ≤ e.frags.length
    · simp only [if_pos hover]
    simp only [if_neg hover]
    split
    · next hroom => rw [hroom, if_neg Bool.false_ne_true]
    · next hroom => rw [hroom, if_pos rfl]

/-- A fragment taken in stands in its datagram's entry, beside those of before. -/
theorem taken_spec {t : Defragger} (hb : d.Balanced) (hsound : ∀ k e, d.entries.lookup k = some e → e.Sound)
    (hf : f.offset < f.stop) (h : d.taken k f mf df totalLen tos now = some t) :
    ∃ e, e.Sound ∧ t.Balanced ∧ t.entries = d.entries.insert k e ∧ f ∈ e.frags ∧
      ∀ g ∈ e.frags, g = f ∨ ∃ e₀, d.entries.lookup k = some e₀ ∧ g ∈ e₀.frags := by
  unfold taken at h
  generalize hold : (d.entries.lookup k).getD { created := now } = e₀ at h
  have hold' : (d.entries.lookup k = some e₀ ∨ d.entries.lookup k = none ∧ e₀ = { created := now }) := by
    cases hl : d.entries.lookup k with
    | none => exact .inr ⟨rfl, by rw [← hold, hl]; rfl⟩
    | some e => exact .inl (by rw [← hold, hl]; rfl)
  have hsound₀ : e₀.Sound := by
    rcases hold' with hl | ⟨-, rfl⟩
    · exact hsound k e₀ hl
    · exact FragEntry.sound_new now
  split at h
  · cases h
  next e hnote =>
  split at h
  · cases h
  next hpast =>
  split at h
  · cases h
  next hover =>
  obtain ⟨-, hfrags, hcharge, -⟩ := FragEntry.noteEnd_frags hnote
  have hperm := FragEntry.frags_insert_perm e f totalLen df tos
  obtain rfl := Option.some.inj h
  have hins : (e.insert f totalLen df tos).charge = e₀.charge + f.charge := by rw [← hcharge]; rfl
  refine ⟨e.insert f totalLen df tos, ?_, ?_, rfl, hperm.mem_iff.mpr List.mem_cons_self, ?_⟩
  · exact hsound₀.insert hnote (Bool.not_eq_true _ ▸ hpast) (Bool.not_eq_true _ ▸ (not_or.mp hover).1) hf
  · unfold Balanced at hb ⊢
    rcases hold' with hl | ⟨hl, rfl⟩
    · have htotal := Table.total_insert_of_some (e.insert f totalLen df tos) FragEntry.charge hl
      dsimp only
      omega
    · rw [Table.total_insert_of_none hl, hins]
      change d.charge + f.charge = 0 + f.charge + _
      omega
  · intro g hg
    rcases List.mem_cons.mp (hperm.subset hg) with rfl | hg
    · exact .inl rfl
    · right
      rw [hfrags] at hg
      rcases hold' with hl | ⟨-, rfl⟩
      · exact ⟨e₀, hl, hg⟩
      · exact absurd hg List.not_mem_nil

end Defragger

/-! ## Sequences of packets -/

/-- A packet given to the reassembler: its zone, and when it comes. -/
structure Call where
  zone : ℕ
  packet : Packet
  now : Instant

namespace Call

def fragment (c : Call) : Option (FragKey × FragData) := fragmentOf c.zone c.packet

/-- The reassembler with the packet's fragment taken in, before room is made for it. -/
def taken (c : Call) (d : Defragger) : Option Defragger :=
  c.fragment.bind fun (k, f) => (d.admitEntry k c.now).taken k f c.packet.ipv4MoreFragments
    c.packet.ipv4DontFragment c.packet.ipv4TotalLen (c.packet.byte 1) c.now

variable {c : Call} {k : FragKey} {f : FragData} {d : Defragger}

theorem zone_of_fragment (h : c.fragment = some (k, f)) : k.zone = c.zone := by
  simp only [fragment, fragmentOf] at h
  split at h
  · cases h
  · obtain ⟨rfl, -⟩ := Prod.mk.inj (Option.some.inj h)
    rfl

theorem pos_of_fragment (h : c.fragment = some (k, f)) : f.offset < f.stop := by
  simp only [fragment, fragmentOf] at h
  split at h
  · cases h
  · next hok =>
    obtain ⟨-, rfl⟩ := Prod.mk.inj (Option.some.inj h)
    simp only [not_or] at hok
    exact Nat.lt_add_of_pos_right (List.length_pos_of_ne_nil hok.2.2.2.2.1)

def after (c : Call) (d : Defragger) : Defragger := (d.reassembleAt c.zone c.packet c.now).2

theorem after_of_none (h : c.fragment = none) : c.after d = d := (Defragger.reassembleAt_of_none h).1

theorem after_of_some (h : c.fragment = some (k, f)) : c.after d =
    (d.accept k f c.packet.ipv4MoreFragments c.packet.ipv4DontFragment c.packet.ipv4TotalLen (c.packet.byte 1)
      c.now).2 := by
  rw [after, Defragger.reassembleAt_of_some h]

end Call

namespace Defragger

def run (calls : List Call) : Defragger := calls.foldl (fun d c => c.after d) {}

/-- The reassembler is within its budget, and holds fragments of the packets given to it. -/
structure Within (calls : List Call) (d : Defragger) : Prop where
  length_le : d.entries.entries.length ≤ DEFRAG_MAX_ENTRIES
  charge_le : d.charge ≤ DEFRAG_MAX_BYTES
  balanced : d.Balanced
  sound : ∀ k e, d.entries.lookup k = some e → e.Sound
  origin : ∀ k e, d.entries.lookup k = some e → ∀ f ∈ e.frags, ∃ c ∈ calls, c.fragment = some (k, f)

variable {calls : List Call} {c : Call} {d d' t : Defragger} {k : FragKey} {f : FragData}

theorem within_new : Within [] {} where
  length_le := Nat.zero_le _
  charge_le := Nat.zero_le _
  balanced := rfl
  sound := by simp
  origin := by simp

theorem Within.prunes (h : Within calls d) (hp : Prunes d d') : Within calls d' where
  length_le := hp.length_le.trans h.length_le
  charge_le := hp.charge_le.trans h.charge_le
  balanced := hp.balanced h.balanced
  sound k e he := h.sound k e (hp.lookup k e he)
  origin k e he := h.origin k e (hp.lookup k e he)

theorem Within.more (h : Within calls d) (c : Call) : Within (calls ++ [c]) d :=
  { h with origin := fun k e he f hf =>
      let ⟨c', hc', hfrag⟩ := h.origin k e he f hf
      ⟨c', List.mem_append_left _ hc', hfrag⟩ }

theorem Within.admitEntry (h : Within calls d) (k : FragKey) (now : Instant) :
    Prunes d (d.admitEntry k now) ∧ ((d.admitEntry k now).entries.lookup k = none →
      (d.admitEntry k now).entries.entries.length < DEFRAG_MAX_ENTRIES) := by
  cases hk : d.entries.lookup k with
  | some e =>
    rw [admitEntry_of_some hk]
    exact ⟨.refl d, fun hnone => by rw [hk] at hnone; cases hnone⟩
  | none =>
    obtain ⟨hprunes, hlt⟩ := admitEntry_of_none now hk h.length_le
    exact ⟨hprunes, fun _ => hlt⟩

/-- The fragment of a packet, once taken in, stands beside fragments of the same datagram. -/
theorem Within.taken (h : Within calls d) (hfrag : c.fragment = some (k, f)) (ht : c.taken d = some t) :
    ∃ e, e.Sound ∧ t.Balanced ∧ t.entries = (d.admitEntry k c.now).entries.insert k e ∧ f ∈ e.frags ∧
      (∀ g ∈ e.frags, ∃ c' ∈ calls ++ [c], c'.fragment = some (k, g)) ∧
      t.entries.entries.length ≤ DEFRAG_MAX_ENTRIES := by
  rw [Call.taken, hfrag, Option.bind_some] at ht
  obtain ⟨hprunes, hroom⟩ := h.admitEntry k c.now
  have hadmit := h.prunes hprunes
  obtain ⟨e, hsound, hbal, hentries, hmem, hold⟩ :=
    taken_spec hadmit.balanced hadmit.sound (Call.pos_of_fragment hfrag) ht
  refine ⟨e, hsound, hbal, hentries, hmem, ?_, ?_⟩
  · intro g hg
    rcases hold g hg with rfl | ⟨e₀, he₀, hg⟩
    · exact ⟨c, by simp, hfrag⟩
    · obtain ⟨c', hc', hfrag'⟩ := hadmit.origin k e₀ he₀ g hg
      exact ⟨c', List.mem_append_left _ hc', hfrag'⟩
  · rw [hentries]
    cases hk : (d.admitEntry k c.now).entries.lookup k with
    | none => exact (Table.length_insert_of_none hk).le.trans (hroom hk)
    | some e₀ => exact (Table.length_insert_of_some hk).le.trans hadmit.length_le

theorem taken_eq (hfrag : c.fragment = some (k, f)) : c.taken d = (d.admitEntry k c.now).taken k f
    c.packet.ipv4MoreFragments c.packet.ipv4DontFragment c.packet.ipv4TotalLen (c.packet.byte 1) c.now := by
  rw [Call.taken, hfrag, Option.bind_some]

/-- Room is made for a fragment taken in, and its datagram put together if it is whole. -/
theorem after_of_taken (hfrag : c.fragment = some (k, f)) (ht : c.taken d = some t) :
    c.after d = (if (t.makeRoom k (t.entries.entries.length + 1)).1
      then ((t.makeRoom k (t.entries.entries.length + 1)).2.complete k).2
      else (t.makeRoom k (t.entries.entries.length + 1)).2) := by
  rw [Call.after_of_some hfrag, accept_eq, ← taken_eq hfrag, ht]

theorem Within.after_cases (h : Within calls d) (c : Call) :
    Prunes d (c.after d) ∨ ∃ k f t, c.fragment = some (k, f) ∧ c.taken d = some t := by
  cases hfrag : c.fragment with
  | none =>
    rw [Call.after_of_none hfrag]
    exact .inl (.refl d)
  | some kf =>
    obtain ⟨k, f⟩ := kf
    cases ht : c.taken d with
    | none =>
      rw [Call.after_of_some hfrag, accept_eq, ← taken_eq hfrag, ht]
      exact .inl ((h.admitEntry k c.now).1.trans (prunes_dropEntry _ k))
    | some t => exact .inr ⟨k, f, t, rfl, rfl⟩

theorem lookup_of_insert {table : Table FragKey FragEntry} {e : FragEntry} (h : t.entries = table.insert k e) :
    t.entries.lookup k = some e := by rw [h, AList.lookup_insert]

/-- Making room, and completing the datagram, only drops others and at last the datagram itself. -/
theorem room_spec {e : FragEntry} (hb : t.Balanced) (hk : t.entries.lookup k = some e) :
    let room := t.makeRoom k (t.entries.entries.length + 1)
    Prunes t (if room.1 then (room.2.complete k).2 else room.2) ∧
      (if room.1 then (room.2.complete k).2 else room.2).charge ≤ DEFRAG_MAX_BYTES := by
  intro room
  obtain ⟨hprunes, hcharge, -⟩ := makeRoom_spec hb hk (Nat.le_succ _)
  split
  · have hcomplete := prunes_complete room.2 k
    exact ⟨hprunes.trans hcomplete, hcomplete.charge_le.trans hcharge⟩
  · exact ⟨hprunes, hcharge⟩

/-- One packet keeps the reassembler within its budget. -/
theorem Within.after (h : Within calls d) (c : Call) : Within (calls ++ [c]) (c.after d) := by
  rcases h.after_cases c with hprunes | ⟨k, f, t, hfrag, htaken⟩
  · exact (h.prunes hprunes).more c
  obtain ⟨e, hsound, hbal, hentries, -, horigin, hlen⟩ := h.taken hfrag htaken
  obtain ⟨hprunes, hcharge⟩ := room_spec hbal (lookup_of_insert hentries)
  have hadmit := (h.prunes (h.admitEntry k c.now).1).more c
  rw [after_of_taken hfrag htaken]
  refine ⟨hprunes.length_le.trans hlen, hcharge, hprunes.balanced hbal, ?_, ?_⟩
  · intro k' e' he'
    have hlook := hprunes.lookup k' e' he'
    rw [hentries, Table.lookup_insert_eq] at hlook
    split at hlook
    · exact Option.some.inj hlook ▸ hsound
    · exact hadmit.sound k' e' hlook
  · intro k' e' he'
    have hlook := hprunes.lookup k' e' he'
    rw [hentries, Table.lookup_insert_eq] at hlook
    split at hlook
    · next hk => exact hk ▸ Option.some.inj hlook ▸ horigin
    · exact hadmit.origin k' e' hlook

theorem within_run (calls : List Call) : Within calls (run calls) := by
  induction calls using List.reverseRecOn with
  | nil => exact within_new
  | append_singleton calls c ih =>
    have hrun : run (calls ++ [c]) = c.after (run calls) := by
      rw [run, List.foldl_append]
      rfl
    rw [hrun]
    exact ih.after c

/-- A packet of one zone leaves the datagrams of the others as they are, or drops them. -/
theorem Within.lookup_other_zone {e : FragEntry} (h : Within calls d) (hzone : k.zone ≠ c.zone)
    (he : (c.after d).entries.lookup k = some e) : d.entries.lookup k = some e := by
  rcases h.after_cases c with hprunes | ⟨k', f, t, hfrag, htaken⟩
  · exact hprunes.lookup k e he
  obtain ⟨e', -, hbal, hentries, -⟩ := h.taken hfrag htaken
  rw [after_of_taken hfrag htaken] at he
  have hlook := (room_spec hbal (lookup_of_insert hentries)).1.lookup k e he
  have hne : k ≠ k' := fun hk => hzone (hk ▸ Call.zone_of_fragment hfrag)
  rw [hentries, Table.lookup_insert_eq, if_neg hne] at hlook
  exact (h.admitEntry k' c.now).1.lookup k e hlook

/-- **The buffers stay within budget.** -/
theorem buffers_within_budget (calls : List Call) :
    (run calls).entries.entries.length ≤ 256 ∧ (run calls).charge ≤ DEFRAG_MAX_BYTES ∧
      (run calls).charge = (run calls).entries.total FragEntry.charge ∧
      (∀ k e, (run calls).entries.lookup k = some e →
        e.charge = (e.frags.map FragData.charge).sum ∧ e.covered = (e.frags.map (·.data.length)).sum ∧
        e.frags.Pairwise (fun f g => f.offset < g.offset ∧ f.stop ≤ g.offset) ∧
        (∀ total ∈ e.total, ∀ f ∈ e.frags, f.stop ≤ total) ∧
        ∀ f ∈ e.frags, ∃ c ∈ calls, c.zone = k.zone ∧ c.fragment = some (k, f)) ∧
      ∀ c : Call,
        (∀ k e, k.zone ≠ c.zone → (c.after (run calls)).entries.lookup k = some e →
          (run calls).entries.lookup k = some e) ∧
        ∀ k f t, c.fragment = some (k, f) → c.taken (run calls) = some t →
          c.after (run calls) = (if (t.makeRoom k (t.entries.entries.length + 1)).1
            then ((t.makeRoom k (t.entries.entries.length + 1)).2.complete k).2
            else (t.makeRoom k (t.entries.entries.length + 1)).2) ∧
          ∃ e, t.entries.lookup k = some e ∧ f ∈ e.frags ∧
            ((t.makeRoom k (t.entries.entries.length + 1)).1 = true ∧
                (t.makeRoom k (t.entries.entries.length + 1)).2.entries.lookup k = some e ∨
              DEFRAG_MAX_BYTES < e.charge) := by
  have hwithin := within_run calls
  refine ⟨hwithin.length_le, hwithin.charge_le, hwithin.balanced, ?_, fun c => ⟨?_, ?_⟩⟩
  · intro k e he
    have hsound := hwithin.sound k e he
    refine ⟨hsound.charge, hsound.covered, ?_, hsound.stop_le, ?_⟩
    · refine hsound.sorted.imp_of_mem fun {f g} hf _ hle => ⟨(hsound.pos f hf).trans_le hle, hle⟩
    · intro f hf
      obtain ⟨c, hc, hfrag⟩ := hwithin.origin k e he f hf
      exact ⟨c, hc, (Call.zone_of_fragment hfrag).symm, hfrag⟩
  · intro k e hzone he
    exact hwithin.lookup_other_zone hzone he
  · intro k f t hfrag htaken
    obtain ⟨e, -, hbal, hentries, hmem, -⟩ := hwithin.taken hfrag htaken
    have hlook := lookup_of_insert hentries
    obtain ⟨-, -, hend⟩ := makeRoom_spec hbal hlook (Nat.le_succ _)
    exact ⟨after_of_taken hfrag htaken, e, hlook, hmem, hend.imp_right And.right⟩

end Defragger

end PktKit.Nat44
