import PktKit.Dhcp.Edits
import PktKit.Foundations.Runs

/-! # The caps on the lease table

How many leases the table holds and how many are recorded against one Ethernet source.
Offers and leases on a client's word are refused at the caps; a reservation's lease and
the renewal of a lease on record are not, so the caps hold exactly in the runs whose
REQUESTs find room.
-/

namespace PktKit.Dhcp
open Foundations

/-- The source a lease is recorded against, while it has not run out. -/
def Lease.liveSrc (now : Instant) (l : Lease) : Option MacAddr := if now < l.expiry then l.src else none

theorem Lease.liveSrc_eq_some {now : Instant} {l : Lease} {m : MacAddr} :
    l.liveSrc now = some m ↔ now < l.expiry ∧ l.src = some m := by
  rw [Lease.liveSrc]
  split <;> simp [*]

namespace Leases

variable {t t' : Leases} {key : ClientKey} {l : Lease} {c : ℕ} {clock now : Instant}

/-- The caps: on the table, and on what is recorded against one source. -/
structure Bounded (c : ℕ) (now : Instant) (t : Leases) : Prop where
  size : t.byKey.entries.length ≤ MAX_LEASES
  sources : ∀ m, t.byKey.tally (Lease.liveSrc now) m ≤ c

theorem Bounded.later (h : Bounded c clock t) (hle : clock ≤ now) : Bounded c now t := by
  refine ⟨h.size, fun m => le_trans ?_ (h.sources m)⟩
  refine List.countP_mono_left fun e _ he => ?_
  obtain ⟨hlive, hsrc⟩ := Lease.liveSrc_eq_some.mp (of_decide_eq_true he)
  exact decide_eq_true (Lease.liveSrc_eq_some.mpr ⟨lt_of_le_of_lt hle hlive, hsrc⟩)

theorem Bounded.expire (h : Bounded c clock t) (hle : clock ≤ now) : Bounded c now (t.expire now) := by
  refine ⟨?_, fun m => ?_⟩
  · exact (List.length_filter_le _ _).trans h.size
  · have hsplit := @Table.tally_retain _ _ _ _ t.byKey (Lease.liveSrc now) m fun _ l => decide (now < l.expiry)
    have hle' := (h.later hle).sources m
    rw [byKey_expire]
    omega

theorem Bounded.erase (h : Bounded c now t) (ht : t'.byKey = t.byKey.erase key) : Bounded c now t' := by
  have hsub : (t.byKey.erase key).entries.Sublist t.byKey.entries := List.kerase_sublist _ _
  refine ⟨?_, fun m => ?_⟩
  · rw [ht]
    exact hsub.length_le.trans h.size
  · rw [ht]
    exact hsub.countP_le.trans (h.sources m)

/-- A lease may be put on record where the client had one or the table has room, and its source had it or
is below its cap. -/
theorem Bounded.insert (h : Bounded c now t) (ht : t'.byKey = t.byKey.insert key l)
    (hroom : (t.byKey.lookup key).isSome ∨ t.byKey.entries.length < MAX_LEASES)
    (hsrc : ∀ m, l.liveSrc now = some m →
      (t.byKey.lookup key).any (fun o => o.liveSrc now = some m) ∨ t.byKey.tally (Lease.liveSrc now) m < c) :
    Bounded c now t' := by
  have hsub : (t.byKey.erase key).entries.Sublist t.byKey.entries := List.kerase_sublist _ _
  refine ⟨?_, fun m => ?_⟩
  · have hlen : (t.byKey.insert key l).entries.length = (t.byKey.erase key).entries.length + 1 := rfl
    rw [ht, hlen]
    rcases hroom with hsome | hlt
    · rw [Table.length_erase hsome]
      exact h.size
    · exact Nat.succ_le_of_lt (lt_of_le_of_lt hsub.length_le hlt)
  · rw [ht, Table.tally_insert]
    have hold := h.sources m
    have hle : Table.tally (t.byKey.erase key) (Lease.liveSrc now) m ≤ t.byKey.tally (Lease.liveSrc now) m :=
      hsub.countP_le
    split
    · rename_i hm
      rcases hsrc m hm with hany | hlt
      · obtain ⟨o, ho, hom⟩ := (Option.any_eq_true _ _).mp hany
        have herase := Table.tally_erase (f := Lease.liveSrc now) (a := m) ho
        rw [if_pos (of_decide_eq_true hom)] at herase
        omega
      · omega
    · omega

def Live (now : Instant) (t : Leases) : Prop := ∀ e ∈ t.byKey.entries, now < e.2.expiry

theorem live_expire (t : Leases) (now : Instant) : Live now (t.expire now) :=
  fun _ he => of_decide_eq_true (List.mem_filter.mp he).2

theorem Live.remove (h : Live now t) : Live now (t.remove key) := by
  intro e he
  rw [byKey_remove] at he
  exact h e ((List.kerase_sublist key t.byKey.entries).subset he)

/-- Among leases that have not run out, the counter of a source is what is recorded against it. -/
theorem Counted.heldFrom (h : t.Counted) (hlive : Live now t) (m : MacAddr) :
    t.heldFrom m = t.byKey.tally (Lease.liveSrc now) m := by
  rw [Leases.heldFrom, h.bySrc.getD]
  refine List.countP_congr fun e he => ?_
  rw [decide_eq_true_iff, decide_eq_true_iff, Lease.liveSrc_eq_some]
  exact ⟨fun hs => ⟨hlive e he, hs⟩, fun hs => hs.2⟩

end Leases

namespace Server

variable {s s' : Server} {key : ClientKey} {res : Reservation} {src : Option MacAddr} {c : ℕ} {clock now : Instant}

/-- Within the caps, with counters that tell what is recorded. -/
structure Capped (c : ℕ) (now : Instant) (s : Server) : Prop where
  cap : s.cfg.maxLeasesPerMac = some c
  counted : s.leases.Counted
  bounded : s.leases.Bounded c now

theorem Capped.later (h : s.Capped c clock) (hle : clock ≤ now) : s.Capped c now :=
  ⟨h.cap, h.counted, h.bounded.later hle⟩

theorem Capped.small (h : s.Capped c now) : s.leases.byKey.entries.length + 1 < 2 ^ 32 := by
  have hle : s.leases.byKey.entries.length ≤ 1024 := h.bounded.size
  omega

theorem Capped.live (h : s.Capped c clock) (hle : clock ≤ now) : (s.liveLeases now).Capped c now :=
  ⟨h.cap, h.counted.expire (by have := h.small; omega), h.bounded.expire hle⟩

theorem Capped.remove (h : s.Capped c now) : (s.removeLease key).Capped c now :=
  ⟨h.cap, h.counted.remove (by have := h.small; omega), h.bounded.erase Leases.byKey_remove⟩

theorem Capped.insert (h : s.Capped c now) {l : Lease}
    (hroom : (s.leases.byKey.lookup key).isSome ∨ s.leases.byKey.entries.length < MAX_LEASES)
    (hsrc : ∀ m, l.liveSrc now = some m →
      (s.leases.byKey.lookup key).any (fun o => o.liveSrc now = some m) ∨
        s.leases.byKey.tally (Lease.liveSrc now) m < c) :
    (s.insertLease key l).Capped c now :=
  ⟨h.cap, h.counted.insert h.small, h.bounded.insert rfl hroom hsrc⟩

theorem allocateNew_capped (h : s.Capped c now) (hlive : s.leases.Live now) :
    (s.allocateNew key res src now).1.Capped c now := by
  rw [allocateNew]
  split
  · exact h
  · rename_i hfull
    split
    · exact h
    · simp only [Bool.or_eq_true, decide_eq_true_eq, not_or, not_le] at hfull
      refine h.insert (.inr hfull.1) fun m hm => .inr ?_
      have hsrc : src = some m := (Lease.liveSrc_eq_some.mp hm).2
      have hover := hfull.2
      simp only [overSrcCap, h.cap, hsrc, decide_eq_true_eq, not_le] at hover
      rwa [h.counted.heldFrom hlive] at hover

theorem allocate_capped (h : s.Capped c clock) (hle : clock ≤ now) :
    (s.allocate key res src now).1.Capped c now := by
  have hl := h.live hle
  have hlive : (s.liveLeases now).leases.Live now := Leases.live_expire s.leases now
  rw [allocate]
  split
  · exact h.later hle
  · simp only
    split
    · exact allocateNew_capped hl hlive
    · rename_i l hkey
      split
      · split
        · exact hl
        · -- the offer is held for longer, for whom it was recorded
          refine hl.insert (.inl (by rw [hkey]; rfl)) fun m hm => .inl ?_
          have hsrc : l.src = some m := (Lease.liveSrc_eq_some.mp hm).2
          rw [hkey, Option.any_some, decide_eq_true_iff]
          exact Lease.liveSrc_eq_some.mpr ⟨hlive ⟨key, l⟩ (Table.lookup_eq_some.mp hkey), hsrc⟩
      · exact allocateNew_capped hl.remove hlive.remove

theorem release_capped {p : Parsed} (h : s.Capped c now) : (s.release p key).Capped c now := by
  rw [release]
  split
  · exact h
  · split
    · exact h.remove
    · exact h

theorem decline_capped {p : Parsed} (h : s.Capped c clock) (hle : clock ≤ now) :
    (s.decline p key now).Capped c now := by
  have hl := h.live hle
  rw [decline]
  split
  · exact h.later hle
  · split
    · exact h.later hle
    · simp only
      split
      · exact hl
      · split
        · exact hl.remove
        · have hr : ((s.liveLeases now).removeLease key).Capped c now := hl.remove
          exact ⟨hr.cap, hr.counted, hr.bounded⟩

/-- If a REQUEST leaves its client a lease, the client had one or the table had room for it; and if that
lease is recorded against a source, the client's was already, or the source was below its cap. -/
def FindsRoom (c : ℕ) (s : Server) (p : Parsed) (key : ClientKey) (src : Option MacAddr) (now : Instant) : Prop :=
  let live := (s.liveLeases now).leases
  ∀ l, (s.request p key src now).1.leases.byKey.lookup key = some l →
    ((live.byKey.lookup key).isSome ∨ live.byKey.entries.length < MAX_LEASES) ∧
      ∀ m, l.src = some m → now < l.expiry →
        (live.byKey.lookup key).any (fun o => o.src = some m) ∨ live.heldFrom m < c

instance (c : ℕ) (s : Server) (p : Parsed) (key : ClientKey) (src : Option MacAddr) (now : Instant) :
    Decidable (FindsRoom c s p key src now) :=
  decidable_of_iff
    ((s.request p key src now).1.leases.byKey.lookup key |>.all fun l =>
      (((s.liveLeases now).leases.byKey.lookup key).isSome ||
        decide ((s.liveLeases now).leases.byKey.entries.length < MAX_LEASES)) &&
      l.src.all fun m => !decide (now < l.expiry) ||
        ((s.liveLeases now).leases.byKey.lookup key).any (fun o => o.src = some m) ||
        decide ((s.liveLeases now).leases.heldFrom m < c))
    (by
      simp only [FindsRoom, Option.all_eq_true, Bool.and_eq_true, Bool.or_eq_true, decide_eq_true_eq,
        Bool.not_eq_true', decide_eq_false_iff_not, or_assoc]
      simp only [imp_iff_not_or])

variable {p : Parsed}

theorem request_capped (h : s.Capped c clock) (hle : clock ≤ now) (hroom : FindsRoom c s p key src now) :
    (s.request p key src now).1.Capped c now := by
  have hl := h.live hle
  have hlive : (s.liveLeases now).leases.Live now := Leases.live_expire s.leases now
  obtain ⟨hcfg, hedit⟩ := request_touches s p key src now
  refine ⟨hcfg ▸ hl.cap, hedit.counted hl.counted hl.small, ?_⟩
  rcases hedit.byKey with he | he | ⟨l, he⟩
  · exact ⟨he ▸ hl.bounded.size, he ▸ hl.bounded.sources⟩
  · exact hl.bounded.erase he
  · obtain ⟨hfree, hsrc⟩ := hroom l (by rw [he, AList.lookup_insert])
    refine hl.bounded.insert he hfree fun m hm => ?_
    obtain ⟨hexp, hlm⟩ := Lease.liveSrc_eq_some.mp hm
    rcases hsrc m hlm hexp with hany | hlt
    · left
      obtain ⟨o, ho, hom⟩ := (Option.any_eq_true _ _).mp hany
      rw [ho, Option.any_some, decide_eq_true_iff]
      exact Lease.liveSrc_eq_some.mpr ⟨hlive ⟨key, o⟩ (Table.lookup_eq_some.mp ho), of_decide_eq_true hom⟩
    · right
      rwa [hl.counted.heldFrom hlive] at hlt

/-- Where the caps hold after a REQUEST, it found room. -/
theorem findsRoom_of_bounded (h : s.Capped c clock) (hle : clock ≤ now)
    (hb : (s.request p key src now).1.leases.Bounded c now) : FindsRoom c s p key src now := by
  have hl := h.live hle
  have hlive : (s.liveLeases now).leases.Live now := Leases.live_expire s.leases now
  intro l hlk
  set live := (s.liveLeases now).leases
  have hedit := (request_touches s p key src now).2
  rcases hedit.byKey with he | he | ⟨l', he⟩
  · rw [he] at hlk
    refine ⟨.inl (by rw [hlk]; rfl), fun m hm _ => .inl ?_⟩
    rw [hlk, Option.any_some, hm, decide_eq_true rfl]
  · rw [he, AList.lookup_erase] at hlk
    exact nomatch hlk
  · rw [he, AList.lookup_insert] at hlk
    obtain rfl := Option.some.inj hlk
    have hsize := hb.size
    have hlen : (live.byKey.insert key l').entries.length = (live.byKey.erase key).entries.length + 1 := rfl
    rw [he, hlen] at hsize
    have hsources : ∀ m, l'.src = some m → now < l'.expiry →
        Table.tally (live.byKey.erase key) (Lease.liveSrc now) m + 1 ≤ c := by
      intro m hm hexp
      have hle' := hb.sources m
      rwa [he, Table.tally_insert, if_pos (Lease.liveSrc_eq_some.mpr ⟨hexp, hm⟩)] at hle'
    cases ho : live.byKey.lookup key with
    | some o =>
      refine ⟨.inl rfl, fun m hm hexp => ?_⟩
      by_cases hom : o.src = some m
      · left
        rw [Option.any_some, decide_eq_true hom]
      · right
        have herase := Table.tally_erase (f := Lease.liveSrc now) (a := m) ho
        rw [if_neg fun h => hom (Lease.liveSrc_eq_some.mp h).2, Nat.add_zero] at herase
        rw [hl.counted.heldFrom hlive, herase]
        exact hsources m hm hexp
    | none =>
      have hsame : live.byKey.erase key = live.byKey :=
        AList.ext (List.kerase_of_notMem_keys (AList.lookup_eq_none.mp ho))
      rw [hsame] at hsize hsources
      refine ⟨.inr hsize, fun m hm hexp => .inr ?_⟩
      rw [hl.counted.heldFrom hlive]
      exact hsources m hm hexp

end Server

/-- A server and the time of the last message. -/
structure Clocked where
  server : Server
  clock : Instant := 0

structure Message where
  p : Parsed
  source : Option MacAddr
  now : Instant

namespace Clocked

def step (s : Clocked) (m : Message) : Option Clocked :=
  if m.now < s.clock then none else some ⟨(s.server.handle m.p m.source m.now).1, m.now⟩

def FindsRoom (c : ℕ) (s : Clocked) (m : Message) : Prop :=
  m.p.msgType = MSG_REQUEST → ∀ key src, s.server.admits m.p m.source = some (key, src) →
    Server.FindsRoom c s.server m.p key src m.now

instance (c : ℕ) (s : Clocked) (m : Message) : Decidable (FindsRoom c s m) :=
  decidable_of_iff (m.p.msgType = MSG_REQUEST →
      ((s.server.admits m.p m.source).all fun x => Server.FindsRoom c s.server m.p x.1 x.2 m.now) = true)
    (by simp [FindsRoom, Option.all_eq_true])

variable {s t : Clocked} {m : Message} {c : ℕ}

theorem capped_step (h : s.server.Capped c s.clock) (hroom : FindsRoom c s m) (hstep : s.step m = some t) :
    t.server.Capped c t.clock := by
  rw [step] at hstep
  split at hstep
  · exact nomatch hstep
  rename_i hnow
  have hle := Nat.le_of_not_lt hnow
  obtain rfl := Option.some.inj hstep
  simp only [Server.handle]
  split
  · exact h.later hle
  rename_i key src hadm
  simp only [Server.serve]
  split
  · exact Server.allocate_capped h hle
  · split
    · rename_i hreq
      have hcap := Server.request_capped h hle (hroom hreq key src hadm)
      split <;> rename_i heq <;> rw [heq] at hcap <;> exact hcap
    · split
      · exact Server.release_capped (h.later hle)
      · split
        · exact Server.decline_capped h hle
        · split <;> exact h.later hle

theorem findsRoom_of_step (h : s.server.Capped c s.clock) (hstep : s.step m = some t)
    (hb : t.server.leases.Bounded c t.clock) : FindsRoom c s m := by
  intro hreq key src hadm
  rw [step] at hstep
  split at hstep
  · exact nomatch hstep
  rename_i hnow
  obtain rfl := Option.some.inj hstep
  refine Server.findsRoom_of_bounded h (Nat.le_of_not_lt hnow) ?_
  have hserve : (s.server.handle m.p m.source m.now).1 = (s.server.request m.p key src m.now).1 := by
    simp only [Server.handle, hadm, Server.serve]
    rw [if_neg (by rw [hreq]; decide), if_pos hreq]
    split <;> rename_i heq <;> rw [heq]
  rw [← hserve]
  exact hb

def mac (n : UInt8) : MacAddr := ⟨[2, 0, 0, 0, 0, n], rfl⟩

/-- A message of type `type` from station `n` for the client identifier `id`, about the address `ip`. -/
def sample (type : ℕ) (n : UInt8) (id : ℕ) (ip : Option Ipv4Addr) (now : Instant) : Message :=
  { p :=
      { op := 1, htype := 1, hlen := 6, chaddrField := ⟨[2, 0, 0, 0, 0, n, 0, 0, 0, 0, 0, 0, 0, 0, 0, 0], rfl⟩
        msgType := type, requestedIp := ip, clientId := some [UInt8.ofNat id] }
    source := some (mac n)
    now := now }

/-- 192.168.0.1/24 with two addresses to give, one lease a station, and 192.168.0.9 reserved for `mac 9`. -/
def config : ServerConfig :=
  { serverIp := 0xC0A80001, subnetMask := 0xFFFFFF00, rangeStart := 0xC0A80002, rangeEnd := 0xC0A80003
    staticLeases := AList.singleton (mac 9) 0xC0A80009, maxLeasesPerMac := some 1 }

end Clocked

end PktKit.Dhcp
