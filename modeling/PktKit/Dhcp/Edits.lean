import PktKit.Dhcp.Server

/-! # What a message does to the leases

Apart from dropping what has run out, a message changes the lease of the client it
comes from and no other.
-/

namespace PktKit.Dhcp
open Foundations

/-- At most the lease of `key` changed; the counters are kept. -/
structure Edits (key : ClientKey) (t t' : Leases) : Prop where
  byKey : t'.byKey = t.byKey ∨ t'.byKey = t.byKey.erase key ∨ ∃ l, t'.byKey = t.byKey.insert key l
  counted : t.Counted → t.byKey.entries.length + 1 < 2 ^ 32 → t'.Counted

namespace Edits

variable {key : ClientKey} {t t' : Leases}

theorem refl (key : ClientKey) (t : Leases) : Edits key t t := ⟨.inl rfl, fun h _ => h⟩

theorem insert (key : ClientKey) (t : Leases) (l : Lease) : Edits key t (t.insert key l) :=
  ⟨.inr (.inr ⟨l, rfl⟩), fun h hsize => h.insert hsize⟩

theorem remove (key : ClientKey) (t : Leases) : Edits key t (t.remove key) :=
  ⟨.inr (.inl Leases.byKey_remove), fun h hsize => h.remove (by omega)⟩

theorem remove_insert (key : ClientKey) (t : Leases) (l : Lease) : Edits key t ((t.remove key).insert key l) := by
  refine ⟨.inr (.inr ⟨l, ?_⟩), fun h hsize => (h.remove (by omega)).insert ?_⟩
  · rw [Leases.byKey_insert, Leases.byKey_remove]
    apply AList.ext
    change ⟨key, l⟩ :: List.kerase key (List.kerase key t.byKey.entries) =
      ⟨key, l⟩ :: List.kerase key t.byKey.entries
    rw [List.kerase_of_notMem_keys (List.notMem_keys_kerase key t.byKey.nodupKeys)]
  · rw [Leases.byKey_remove]
    have hle : (t.byKey.erase key).entries.length ≤ t.byKey.entries.length := (List.kerase_sublist _ _).length_le
    omega

end Edits

namespace Server

variable {s : Server} {key : ClientKey} {res : Reservation} {src : Option MacAddr} {ip : Ipv4Addr} {now : Instant}

def Touches (key : ClientKey) (s s' : Server) : Prop := s'.cfg = s.cfg ∧ Edits key s.leases s'.leases

theorem commitUnknown_cases (s : Server) (key : ClientKey) (src : Option MacAddr) (ip : Ipv4Addr)
    (held renewing : Bool) (now : Instant) :
    let s' := (s.commitUnknown key src ip held renewing now).1
    s'.cfg = s.cfg ∧ (s'.leases = s.leases ∨ ∃ l, s'.leases = s.leases.insert key l) := by
  intro s'
  simp only [s', commitUnknown]
  split_ifs
  · exact ⟨rfl, .inl rfl⟩
  · exact ⟨rfl, .inl rfl⟩
  · exact ⟨rfl, .inl rfl⟩
  · exact ⟨rfl, .inl rfl⟩
  · exact ⟨rfl, .inr ⟨_, rfl⟩⟩

theorem insertLease_touches (s : Server) (key : ClientKey) (l : Lease) : Touches key s (s.insertLease key l) :=
  ⟨rfl, Edits.insert key s.leases l⟩

theorem removeLease_touches (s : Server) (key : ClientKey) : Touches key s (s.removeLease key) :=
  ⟨rfl, Edits.remove key s.leases⟩

theorem Touches.refl (key : ClientKey) (s : Server) : Touches key s s := ⟨rfl, Edits.refl key s.leases⟩

/-- A message that goes on after the lease of its client was removed changes that lease only. -/
theorem Touches.of_cases {s₀ s s' : Server} (hs : s = s₀ ∨ s = s₀.removeLease key) (hcfg : s'.cfg = s.cfg)
    (h : s'.leases = s.leases ∨ ∃ l, s'.leases = s.leases.insert key l) : Touches key s₀ s' := by
  refine ⟨?_, ?_⟩
  · rcases hs with rfl | rfl <;> exact hcfg
  · rcases hs with rfl | rfl <;> rcases h with h | ⟨l, h⟩ <;> rw [h]
    · exact Edits.refl key _
    · exact Edits.insert key _ l
    · exact Edits.remove key _
    · exact Edits.remove_insert key _ l

theorem commit_touches (s : Server) (key : ClientKey) (res : Reservation) (src : Option MacAddr) (ip : Ipv4Addr)
    (renewing : Bool) (now : Instant) : Touches key s (s.commit key res src ip renewing now).1 := by
  simp only [commit]
  split
  · exact Touches.refl key s
  · split
    · split
      · exact Touches.refl key s
      · exact insertLease_touches s key _
    · split
      · obtain ⟨hcfg, hl⟩ := commitUnknown_cases s key src ip (s.heldByOthers key res ip) renewing now
        exact Touches.of_cases (.inl rfl) hcfg hl
      · split
        · split
          · split <;> exact insertLease_touches s key _
          · exact insertLease_touches s key _
        · split
          · exact Touches.refl key s
          · obtain ⟨hcfg, hl⟩ := commitUnknown_cases (s.removeLease key)
              key src ip (s.heldByOthers key res ip) renewing now
            exact Touches.of_cases (.inr rfl) hcfg hl

theorem request_touches (s : Server) (p : Parsed) (key : ClientKey) (src : Option MacAddr) (now : Instant) :
    Touches key (s.liveLeases now) (s.request p key src now).1 := by
  simp only [request]
  split
  · split
    · split
      · exact removeLease_touches _ key
      · exact Touches.refl key _
    · split
      · split
        · exact removeLease_touches _ key
        · exact commit_touches _ key _ src _ _ now
      · exact Touches.refl key _
  · exact commit_touches _ key _ src _ _ now
  · split
    · exact commit_touches _ key _ src _ _ now
    · exact Touches.refl key _

end Server

end PktKit.Dhcp
