import PktKit.Dhcp.Caps

/-! # One client to an address

Two clients have one address only if it is reserved: a station gets its reservation under every identifier.
-/

namespace PktKit.Dhcp
open Foundations

variable {s u : Server} {key : ClientKey} {ip : Ipv4Addr} {res : Reservation} {src : Option MacAddr}
  {now : Instant} {p : Parsed} {e : Sigma fun _ : ClientKey => Lease}

namespace Server

/-- No client but this one has the address. -/
def Free (s : Server) (key : ClientKey) (ip : Ipv4Addr) : Prop :=
  ∀ e ∈ s.leases.byKey.entries, e.2.ip = ip → e.1 = key

/-- Leases of the client that sent a message, or that have run out, may be gone. -/
structure Fewer (p : Parsed) (now : Instant) (s u : Server) : Prop where
  cfg : u.cfg = s.cfg
  counted : u.leases.Counted
  sub : u.leases.byKey.entries.Sublist s.leases.byKey.entries
  kept : ∀ e ∈ s.leases.byKey.entries, now < e.2.expiry → ClientKey.of p ≠ some e.1 → e ∈ u.leases.byKey.entries

/-- What a message does: at most the lease of its client is new. -/
inductive Change (p : Parsed) (now : Instant) (s : Server) : Server → Prop
  | fewer {u : Server} (h : Fewer p now s u) : Change p now s u
  | insert {u : Server} {key : ClientKey} {l : Lease} (hkey : ClientKey.of p = some key) (h : Fewer p now s u)
      (hfree : u.cfg.reserved l.ip = [] → u.Free key l.ip) : Change p now s (u.insertLease key l)

theorem mem_erase {t : Table ClientKey Lease} (he : e ∈ t.entries) (hkey : ClientKey.of p = some key)
    (hne : ClientKey.of p ≠ some e.1) : e ∈ (t.erase key).entries := by
  have hother : e.1 ≠ key := fun heq => hne (heq ▸ hkey)
  apply Table.lookup_eq_some.mp
  rw [Table.lookup_erase_eq, if_neg hother]
  exact Table.lookup_eq_some.mpr he

namespace Fewer

variable (h : Fewer p now s u)
include h

theorem free (hheld : u.heldByOthers key res ip = false) : u.Free key ip := by
  have hother := (Bool.or_eq_false_iff.mp hheld).1
  simp only [Leases.heldByOther, h.counted.byIp.getD, decide_eq_false_iff_not, not_lt] at hother
  intro e he hip
  by_contra hne
  have htally := Table.tally_erase (f := fun l => some l.ip) (a := ip) (Table.lookup_eq_some.mpr he)
  rw [if_pos (congrArg some hip)] at htally
  cases ho : u.leases.byKey.lookup key with
  | none => simp [ho, htally] at hother
  | some o =>
    have hown := Table.tally_erase (t := u.leases.byKey.erase e.1) (k := key) (v := o) (f := fun l => some l.ip)
      (a := ip) (by rw [Table.lookup_erase_eq, if_neg (Ne.symm hne), ho])
    rw [htally, hown, ho] at hother
    by_cases hoip : o.ip = ip <;> simp [hoip] at hother

variable (hn : s.leases.byKey.entries.length + 1 < 2 ^ 32) (hkey : ClientKey.of p = some key)
include hkey

theorem allocateNew : Change p now s (u.allocateNew key res src now).1 := by
  unfold Server.allocateNew
  split
  · exact .fewer h
  split
  · exact .fewer h
  next ip hpick =>
  have hp := List.find?_some hpick
  simp only [Bool.and_eq_true, Bool.not_eq_true'] at hp
  exact .insert hkey h fun _ => h.free hp.1.2

theorem commitUnknown {held renewing : Bool} (hfree : held = false → u.Free key ip) :
    Change p now s (u.commitUnknown key src ip held renewing now).1 := by
  unfold Server.commitUnknown
  dsimp only
  split_ifs with _ hheld
  · exact .fewer h
  · exact .fewer h
  · exact .fewer h
  · exact .fewer { h with }
  · exact .insert hkey { h with } fun _ => hfree (by simpa using hheld)

include hn

theorem remove : Fewer p now s (u.removeLease key) := by
  have hsize := h.sub.length_le
  have hsub : (u.removeLease key).leases.byKey = u.leases.byKey.erase key := Leases.byKey_remove
  refine ⟨h.cfg, h.counted.remove (by omega), ?_, fun e he hexp hne => ?_⟩ <;> rw [hsub]
  · exact (List.kerase_sublist _ _).trans h.sub
  · exact mem_erase (h.kept e he hexp hne) hkey hne

theorem commit {renewing : Bool} (hres : ∀ a, res.ip = some a → u.cfg.reserved a ≠ []) :
    Change p now s (u.commit key res src ip renewing now).1 := by
  unfold Server.commit
  dsimp only
  split
  · exact .fewer h
  split
  · next a ha =>
    split
    · exact .fewer h
    · next heq => exact .insert hkey h fun he => (hres a ha (not_not.mp heq ▸ he)).elim
  split
  · exact h.commitUnknown hkey h.free
  split
  · next hown =>
    simp only [Bool.and_eq_true, decide_eq_true_eq, Bool.not_eq_true'] at hown
    split
    · split
      · exact .insert hkey h fun _ => h.free hown.2
      · exact .insert hkey h fun _ => hown.1 ▸ h.free hown.2
    · exact .insert hkey h fun _ => h.free hown.2
  split
  · exact .fewer h
  · refine (h.remove hn hkey).commitUnknown hkey fun hheld e he => h.free hheld e ?_
    rw [removeLease, Leases.byKey_remove] at he
    exact (List.kerase_sublist _ _).subset he

end Fewer

theorem reserved_reservation (cfg : ServerConfig) (p : Parsed) (a : Ipv4Addr)
    (h : (cfg.reservation p).ip = some a) : cfg.reserved a ≠ [] := by
  obtain ⟨m, -, hm⟩ := Option.bind_eq_some_iff.mp h
  apply List.ne_nil_of_mem (a := m)
  exact List.mem_map.mpr ⟨_, List.mem_filter.mpr ⟨Table.lookup_eq_some.mp hm, decide_eq_true rfl⟩, rfl⟩

theorem key_of_admits {source : Option MacAddr} (h : s.admits p source = some (key, src)) :
    ClientKey.of p = some key := by
  simp only [admits, Option.ite_none_left_eq_some, Option.bind_eq_some_iff, Option.map_eq_some_iff] at h
  obtain ⟨-, k, hk, -, _, -, ⟨⟩⟩ := h
  exact hk

theorem handle_change (source : Option MacAddr) (now : Instant) (hc : s.leases.Counted)
    (hn : s.leases.byKey.entries.length + 1 < 2 ^ 32) : Change p now s (s.handle p source now).1 := by
  have h : Fewer p now s s := ⟨rfl, hc, .refl _, fun _ he _ _ => he⟩
  have hl : Fewer p now s (s.liveLeases now) := ⟨rfl, hc.expire (by omega), List.filter_sublist,
    fun _ he hexp _ => List.mem_filter.mpr ⟨he, decide_eq_true hexp⟩⟩
  have hres := reserved_reservation s.cfg p
  unfold handle
  split
  · exact .fewer h
  next key src hadm =>
  have hkey := key_of_admits hadm
  unfold serve
  split_ifs
  · change Change p now s (s.allocate key _ src now).1
    unfold allocate
    split
    · exact .fewer h
    dsimp only
    split
    · exact hl.allocateNew hkey
    split
    · next hheld =>
      split
      · exact .fewer hl
      · exact .insert hkey hl fun _ => hl.free (by simpa using hheld)
    · exact (hl.remove hn hkey).allocateNew hkey
  · have hreq : Change p now s (s.request p key src now).1 := by
      unfold request
      dsimp only
      split
      · split
        · split
          · exact .fewer (hl.remove hn hkey)
          · exact .fewer hl
        split
        · split
          · exact .fewer (hl.remove hn hkey)
          · exact hl.commit hn hkey hres
        · exact .fewer hl
      · exact hl.commit hn hkey hres
      · split
        · exact hl.commit hn hkey hres
        · exact .fewer hl
    split <;> rename_i heq <;> rw [heq] at hreq <;> exact hreq
  · unfold release
    split_ifs
    · exact .fewer h
    · exact .fewer (h.remove hn hkey)
    · exact .fewer h
  · unfold decline
    split
    · exact .fewer h
    split
    · exact .fewer h
    dsimp only
    split_ifs
    · exact .fewer hl
    · exact .fewer (hl.remove hn hkey)
    · exact .fewer { hl.remove hn hkey with }
  · exact .fewer h
  · exact .fewer h

theorem Change.kept (h : s.Change p now u) (he : e ∈ s.leases.byKey.entries) (hexp : now < e.2.expiry)
    (hne : ClientKey.of p ≠ some e.1) : e ∈ u.leases.byKey.entries := by
  cases h with
  | fewer h => exact h.kept e he hexp hne
  | insert hkey h => exact List.mem_cons_of_mem _ (mem_erase (h.kept e he hexp hne) hkey hne)

/-- The table after at most `n` messages. -/
structure Exclusive (n : ℕ) (s : Server) : Prop where
  counted : s.leases.Counted
  size : s.leases.byKey.entries.length ≤ n
  apart : s.leases.byKey.entries.Pairwise fun e e' => e.2.ip = e'.2.ip → s.cfg.reserved e.2.ip ≠ []

theorem Exclusive.change {n : ℕ} (h : s.Exclusive n) (hn : n + 1 < 2 ^ 32) (hu : s.Change p now u) :
    u.Exclusive (n + 1) := by
  have hsize := h.size
  cases hu with
  | fewer hu => exact ⟨hu.counted, by have := hu.sub.length_le; omega, hu.cfg ▸ h.apart.sublist hu.sub⟩
  | @insert u key l _ hu hfree =>
    have hsub := List.kerase_sublist key u.leases.byKey.entries
    have hlen := hu.sub.length_le.trans hsize
    refine ⟨hu.counted.insert (by omega), Nat.succ_le_succ (hsub.length_le.trans hlen), ?_⟩
    refine List.pairwise_cons.mpr ⟨fun e he hip hres => ?_, hu.cfg ▸ h.apart.sublist (hsub.trans hu.sub)⟩
    have hmem := List.mem_keys_of_mem he
    rw [hfree hres e (hsub.subset he) hip.symm] at hmem
    exact List.notMem_keys_kerase key u.leases.byKey.nodupKeys hmem

end Server

namespace Clocked

variable {s t : Clocked} {ms pre : List Message} {cfg : ServerConfig}

theorem exclusive_run {n : ℕ} (hrun : Runs.run step s ms = some t) (h : s.server.Exclusive n)
    (hn : n + ms.length < 2 ^ 32) : t.server.Exclusive (n + ms.length) ∧ ∀ e ∈ s.server.leases.byKey.entries,
      (∀ m ∈ ms, m.now < e.2.expiry ∧ ClientKey.of m.p ≠ some e.1) → e ∈ t.server.leases.byKey.entries := by
  induction ms generalizing s n with
  | nil => exact Option.some.inj hrun ▸ ⟨h, fun _ he _ => he⟩
  | cons m ms ih =>
    obtain ⟨u, hu, hut⟩ := Runs.run_cons.mp hrun
    rw [step] at hu
    split at hu
    · cases hu
    obtain rfl := Option.some.inj hu
    have hsize := h.size
    rw [List.length_cons, ← Nat.add_assoc, Nat.add_right_comm] at hn ⊢
    have hchange := Server.handle_change (p := m.p) m.source m.now h.counted (by omega)
    obtain ⟨hall, hkept⟩ := ih hut (h.change (by omega) hchange) hn
    refine ⟨hall, fun e he hms => ?_⟩
    obtain ⟨⟨hexp, hne⟩, hms⟩ := List.forall_mem_cons.mp hms
    exact hkept e (hchange.kept he hexp hne) hms

theorem exclusive_zero (cfg : ServerConfig) : ({ cfg := cfg } : Server).Exclusive 0 :=
  ⟨⟨fun _ => rfl, fun _ => rfl⟩, le_rfl, .nil⟩

/-- Whatever is asked and by whom, no two clients are in the table with one address unless it is reserved. -/
theorem one_client_to_an_address (hrun : Runs.run step ⟨{ cfg := cfg }, 0⟩ ms = some t)
    (hlen : ms.length < 2 ^ 32) :
    t.server.leases.byKey.entries.Pairwise fun e e' => e.2.ip = e'.2.ip → t.server.cfg.reserved e.2.ip ≠ [] :=
  (exclusive_run hrun (exclusive_zero cfg) (by omega)).1.apart

theorem one_client_to_an_address_two_stations :
    ∃ t, Runs.run step ⟨{ cfg := config }, 0⟩
        [sample MSG_DISCOVER 4 1 none 0, sample MSG_DISCOVER 5 2 none 1] = some t ∧
      t.server.leases.byKey.entries.length = 2 ∧ t.server.leases.byKey.entries.Pairwise fun e e' =>
        e.2.ip = e'.2.ip → t.server.cfg.reserved e.2.ip ≠ [] :=
  Runs.exists_of_any (by decide +kernel) fun _ ht h => ⟨h, one_client_to_an_address ht (by decide)⟩

end Clocked

end PktKit.Dhcp
