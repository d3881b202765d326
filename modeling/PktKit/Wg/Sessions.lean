import PktKit.Wg.Moves

/-! # The tables of a handler are consistent

In every run: the keypair index and the slots of the sessions hold the same keypairs, a pending
handshake is the only one of its peer and shares its index with nothing, and what belongs to a peer
goes when the peer does.
-/

namespace PktKit.Wg
open Foundations

/-- The slots of a session, by age: nothing in them was created after `T`. -/
structure Session.Ordered (T : Instant) (x : Session) : Prop where
  nodup : x.slots.Nodup
  prev : ∀ p, x.keypairPrev = some p → ∃ c, x.keypairCurrent = some c ∧ p.created ≤ c.created
  next : ∀ n c, x.keypairNext = some n → x.keypairCurrent = some c → c.created ≤ n.created
  bound : ∀ kp ∈ x.slots, kp.created ≤ T

/-- What holds of the tables between any two moves. -/
structure Consistent (s : Running) : Prop where
  slot : ∀ key x kp, s.handler.sessions.lookup key = some x → kp ∈ x.slots →
    kp.peerKey = key ∧ s.handler.keypairs.lookup kp.localIndex = some kp
  indexed : ∀ idx kp, s.handler.keypairs.lookup idx = some kp →
    kp.localIndex = idx ∧ ∃ x, s.handler.sessions.lookup kp.peerKey = some x ∧ kp ∈ x.slots
  ordered : ∀ key x, s.handler.sessions.lookup key = some x → x.Ordered s.last
  own : s.handler.Own
  alone : ∀ i j hs hs', s.handler.handshakes.lookup i = some hs → s.handler.handshakes.lookup j = some hs' →
    hs.remoteStatic = hs'.remoteStatic → i = j
  apart : ∀ idx hs, s.handler.handshakes.lookup idx = some hs → s.handler.keypairs.lookup idx = none
  pending_known : ∀ idx hs, s.handler.handshakes.lookup idx = some hs →
    (s.handler.peers.lookup hs.remoteStatic).isSome = true
  session_known : ∀ key x, s.handler.sessions.lookup key = some x → (s.handler.peers.lookup key).isSome = true

section

variable {P : Primitives} {s s' : Running} {x : Session} {kp : Keypair} {T T' : Instant}

/-! ## Sessions -/

theorem mem_slots : kp ∈ x.slots ↔ x.keypairCurrent = some kp ∨ x.keypairPrev = some kp ∨
    x.keypairNext = some kp := by
  simp [Session.slots]

theorem Session.Ordered.mono (h : x.Ordered T) (hT : T ≤ T') : x.Ordered T' :=
  { h with bound := fun kp hkp => (h.bound kp hkp).trans hT }

theorem ordered_empty (received sent : Instant) : Session.Ordered T
    { lastReceived := received, lastSent := sent } := by
  constructor <;> simp [Session.slots]

theorem slots_congr {y : Session} (hc : y.keypairCurrent = x.keypairCurrent) (hp : y.keypairPrev = x.keypairPrev)
    (hn : y.keypairNext = x.keypairNext) : y.slots = x.slots := by
  simp [Session.slots, hc, hp, hn]

theorem Session.Ordered.congr {y : Session} (h : x.Ordered T) (hc : y.keypairCurrent = x.keypairCurrent)
    (hp : y.keypairPrev = x.keypairPrev) (hn : y.keypairNext = x.keypairNext) : y.Ordered T := by
  have hs := slots_congr hc hp hn
  constructor
  · exact hs ▸ h.nodup
  · rw [hc, hp]
    exact h.prev
  · rw [hc, hn]
    exact h.next
  · exact hs ▸ h.bound

/-- A session after a keypair is placed in it: in order, and holding the keypair and what it did not
displace. -/
structure Placed (x : Session) (kp : Keypair) (T : Instant) (r : Session × List Keypair) : Prop where
  ordered : r.1.Ordered T
  mem : ∀ y, y ∈ r.1.slots ↔ (y = kp ∨ y ∈ x.slots) ∧ y ∉ r.2
  gone : ∀ y ∈ r.2, y ∈ x.slots

theorem placed_responder (ho : x.Ordered T) (hk : kp ∉ x.slots) (hT : kp.created = T) :
    Placed x kp T (Handler.placeResponder x kp) := by
  obtain ⟨cur, prev, next, received, sent⟩ := x
  obtain ⟨hnd, hp, hn, hb⟩ := ho
  simp only [Session.slots] at *
  refine ⟨⟨?_, ?_, ?_, ?_⟩, ?_, ?_⟩ <;>
    rcases cur with _ | c <;> rcases prev with _ | p <;> rcases next with _ | n <;>
    simp_all [Handler.placeResponder, Session.slots] <;> grind

theorem placed_initiator (ho : x.Ordered T) (hk : kp ∉ x.slots) (hT : kp.created = T) :
    Placed x kp T (Handler.placeInitiator x kp) := by
  obtain ⟨cur, prev, next, received, sent⟩ := x
  obtain ⟨hnd, hp, hn, hb⟩ := ho
  simp only [Session.slots] at *
  refine ⟨⟨?_, ?_, ?_, ?_⟩, ?_, ?_⟩ <;>
    rcases cur with _ | c <;> rcases prev with _ | p <;> rcases next with _ | n <;>
    simp_all [Handler.placeInitiator, Session.slots] <;> grind

theorem placed (ho : x.Ordered T) (hk : kp ∉ x.slots) (hT : kp.created = T) :
    Placed x kp T (Handler.place kp.isInitiator x kp) := by
  cases hi : kp.isInitiator
  · exact placed_responder ho hk hT
  · exact placed_initiator ho hk hT

theorem Session.Ordered.promoted {next : Keypair} (ho : x.Ordered T) (hn : x.keypairNext = some next) :
    (x.promoted next).Ordered T ∧ ∀ y, y ∈ (x.promoted next).slots ↔ y ∈ x.slots ∧ y ∉ x.keypairPrev.toList := by
  obtain ⟨cur, prev, _, received, sent⟩ := x
  obtain ⟨hnd, hp, hnx, hb⟩ := ho
  subst hn
  simp only [Session.slots] at *
  refine ⟨⟨?_, ?_, ?_, ?_⟩, ?_⟩ <;>
    rcases cur with _ | c <;> rcases prev with _ | p <;> simp_all [Session.promoted, Session.slots] <;> grind

theorem mem_slots_cleanSession {now : Instant} :
    kp ∈ (Handler.cleanSession now x).slots ↔ kp ∈ x.slots ∧ Handler.expired now kp = false := by
  simp only [mem_slots, Handler.cleanSession, Option.filter_eq_some_iff, Bool.not_eq_true']
  tauto

theorem expired_of_le {now : Instant} {a b : Keypair} (hab : a.created ≤ b.created)
    (hb : Handler.expired now b = true) :
    Handler.expired now a = true := by
  simp only [Handler.expired, decide_eq_true_eq] at *
  exact hb.trans_le (Nat.sub_le_sub_left hab now)

theorem Session.Ordered.cleanSession {now : Instant} (ho : x.Ordered T) :
    (Handler.cleanSession now x).Ordered T where
  nodup := by
    have hsub : (Handler.cleanSession now x).slots = x.slots.filter (!Handler.expired now ·) := by
      simp [Session.slots, Handler.cleanSession, Option.toList_filter]
    rw [hsub]
    exact ho.nodup.filter _
  prev p hp := by
    obtain ⟨hp, hpe⟩ := Option.filter_eq_some_iff.mp hp
    obtain ⟨c, hc, hle⟩ := ho.prev p hp
    refine ⟨c, Option.filter_eq_some_iff.mpr ⟨hc, ?_⟩, hle⟩
    cases he : Handler.expired now c
    · rfl
    · simp [expired_of_le hle he] at hpe
  next n c hn hc :=
    ho.next n c (Option.filter_eq_some_iff.mp hn).1 (Option.filter_eq_some_iff.mp hc).1
  bound kp hkp := ho.bound kp (mem_slots_cleanSession.mp hkp).1

theorem keepsSession_of_mem {now : Instant} (ho : x.Ordered T) (hk : kp ∈ x.slots) :
    Handler.keepsSession now x = true := by
  unfold Handler.keepsSession
  rcases mem_slots.mp hk with h | h | h
  · simp [h]
  · obtain ⟨c, hc, -⟩ := ho.prev kp h
    simp [hc]
  · simp [h]

/-! ## The index -/

theorem lookup_unindex {t : Table Index Keypair} {gone : List Keypair} {idx : Index} :
    (Handler.unindex t gone).lookup idx = if ∃ g ∈ gone, g.localIndex = idx then none else t.lookup idx := by
  induction gone generalizing t with
  | nil => simp [Handler.unindex]
  | cons g gone ih =>
    have hstep : Handler.unindex t (g :: gone) = Handler.unindex (t.erase g.localIndex) gone := rfl
    rw [hstep, ih, Table.lookup_erase_eq]
    by_cases h1 : ∃ g ∈ gone, g.localIndex = idx
    · rw [if_pos h1, if_pos]
      obtain ⟨g', hg', he⟩ := h1
      exact ⟨g', List.mem_cons_of_mem _ hg', he⟩
    · rw [if_neg h1]
      by_cases h2 : idx = g.localIndex
      · rw [if_pos h2, if_pos ⟨g, List.mem_cons_self, h2.symm⟩]
      · rw [if_neg h2, if_neg]
        rintro ⟨g', hg', he⟩
        rcases List.mem_cons.mp hg' with rfl | hg'
        · exact h2 he.symm
        · exact h1 ⟨g', hg', he⟩

theorem lookup_unindex_eq_some {t : Table Index Keypair} {gone : List Keypair} {idx : Index} :
    (Handler.unindex t gone).lookup idx = some kp ↔ t.lookup idx = some kp ∧ ∀ g ∈ gone, g.localIndex ≠ idx := by
  rw [lookup_unindex]
  split
  · next h =>
    obtain ⟨g, hg, he⟩ := h
    simpa using fun _ => ⟨g, hg, he⟩
  · next h =>
    simp only [not_exists, not_and] at h
    exact ⟨fun ht => ⟨ht, h⟩, And.left⟩

theorem lookup_foldl_erase {t : Table PublicKey Session} {gone : List PublicKey} {key : PublicKey} :
    (gone.foldl (fun t k => t.erase k) t).lookup key = if key ∈ gone then none else t.lookup key := by
  induction gone generalizing t with
  | nil => simp
  | cons g gone ih =>
    rw [List.foldl_cons, ih, Table.lookup_erase_eq]
    by_cases h1 : key ∈ gone <;> by_cases h2 : key = g <;> simp [h1, h2]

/-! ## What each move keeps -/

theorem Consistent.slot_inj (hc : Consistent s) {k k' : PublicKey} {x x' : Session} {y y' : Keypair}
    (hx : s.handler.sessions.lookup k = some x) (hy : y ∈ x.slots) (hx' : s.handler.sessions.lookup k' = some x')
    (hy' : y' ∈ x'.slots) (h : y.localIndex = y'.localIndex) : y = y' := by
  have h1 := (hc.slot k x y hx hy).2
  have h2 := (hc.slot k' x' y' hx' hy').2
  rw [h, h2] at h1
  exact (Option.some.inj h1).symm

/-- Fewer pending handshakes, and nothing else changed of the tables. -/
theorem Consistent.fewer (hc : Consistent s) {h : Handler} (hk : h.keypairs = s.handler.keypairs)
    (hs : h.sessions = s.handler.sessions)
    (hh : ∀ idx hs, h.handshakes.lookup idx = some hs → s.handler.handshakes.lookup idx = some hs)
    (hp : ∀ key, (s.handler.peers.lookup key).isSome = true → (h.peers.lookup key).isSome = true) :
    Consistent (s.on h) where
  slot key x kp hx hkp := by
    rw [Running.on, hk]
    exact hc.slot key x kp (hs ▸ hx) hkp
  indexed idx kp hkp := by
    rw [Running.on, hs]
    exact hc.indexed idx kp (hk ▸ hkp)
  ordered key x hx := hc.ordered key x (hs ▸ hx)
  own idx hs' hl := hc.own idx hs' (hh idx hs' hl)
  alone i j a b ha hb := hc.alone i j a b (hh i a ha) (hh j b hb)
  apart idx hs' hl := by
    rw [Running.on, hk]
    exact hc.apart idx hs' (hh idx hs' hl)
  pending_known idx hs' hl := hp _ (hc.pending_known idx hs' (hh idx hs' hl))
  session_known key x hx := hp _ (hc.session_known key x (hs ▸ hx))

theorem Consistent.quiet (hc : Consistent s) {h : Handler} (hq : Quiet s.handler h) : Consistent (s.on h) := by
  refine hc.fewer hq.keypairs hq.sessions (fun _ _ hl => hq.handshakes ▸ hl) fun key hk => ?_
  have hp := congrArg Option.isSome (hq.peers key)
  simp only [Option.isSome_map] at hp
  rw [hp, hk]

theorem Consistent.touch (hc : Consistent s) {key : PublicKey} {f : Session → Session}
    (hf : ∀ x, (f x).keypairCurrent = x.keypairCurrent ∧ (f x).keypairPrev = x.keypairPrev ∧
      (f x).keypairNext = x.keypairNext) :
    Consistent (s.on { s.handler with sessions := s.handler.sessions.modify key f }) := by
  have hback : ∀ k y, (s.handler.sessions.modify key f).lookup k = some y → ∃ x,
      s.handler.sessions.lookup k = some x ∧ y.slots = x.slots ∧ (x.Ordered s.last → y.Ordered s.last) := by
    intro k y hy
    rw [Table.lookup_modify] at hy
    split at hy
    · next he =>
      subst he
      obtain ⟨x, hx, rfl⟩ := Option.map_eq_some_iff.mp hy
      obtain ⟨h1, h2, h3⟩ := hf x
      exact ⟨x, hx, slots_congr h1 h2 h3, fun ho => ho.congr h1 h2 h3⟩
    · exact ⟨y, hy, rfl, id⟩
  refine { hc with slot := ?_, indexed := ?_, ordered := ?_, session_known := ?_ }
  · intro k y kp hy hkp
    obtain ⟨x, hx, hs, -⟩ := hback k y hy
    exact hc.slot k x kp hx (hs ▸ hkp)
  · intro idx kp hkp
    obtain ⟨hi, x, hx, hm⟩ := hc.indexed idx kp hkp
    refine ⟨hi, ?_⟩
    by_cases hk : kp.peerKey = key
    · obtain ⟨h1, h2, h3⟩ := hf x
      refine ⟨f x, ?_, slots_congr h1 h2 h3 ▸ hm⟩
      subst hk
      simp [Running.on, Table.lookup_modify, hx]
    · exact ⟨x, by simp [Running.on, Table.lookup_modify, hk, hx], hm⟩
  · intro k y hy
    obtain ⟨x, hx, -, ho⟩ := hback k y hy
    exact ho (hc.ordered k x hx)
  · intro k y hy
    obtain ⟨x, hx, -⟩ := hback k y hy
    exact hc.session_known k x hx

theorem Consistent.forget (hc : Consistent s) (gone : List PublicKey) :
    Consistent (s.on ((gone.foldl Handler.takePeerLocked s.handler).forgetPeers gone)) := by
  obtain ⟨peers, tombstones, he⟩ := takePeers_eq s.handler gone
  have hh := congrArg Handler.handshakes he
  have hk := congrArg Handler.keypairs he
  have hs := congrArg Handler.sessions he
  have hsess : ∀ k x, ((gone.foldl Handler.takePeerLocked s.handler).forgetPeers gone).sessions.lookup k = some x →
      k ∉ gone ∧ s.handler.sessions.lookup k = some x := by
    intro k x hx
    simp only [Handler.forgetPeers, hs, lookup_foldl_erase] at hx
    split at hx
    · cases hx
    · next hn => exact ⟨hn, hx⟩
  have hpend : ∀ i a, ((gone.foldl Handler.takePeerLocked s.handler).forgetPeers gone).handshakes.lookup i =
    some a →
      s.handler.handshakes.lookup i = some a ∧ a.remoteStatic ∉ gone := by
    intro i a ha
    simpa [Handler.forgetPeers, hh, Table.lookup_retain, Option.filter_eq_some_iff] using ha
  have hkeep : ∀ i a, ((gone.foldl Handler.takePeerLocked s.handler).forgetPeers gone).keypairs.lookup i = some a ↔
      s.handler.keypairs.lookup i = some a ∧ a.peerKey ∉ gone := by
    intro i a
    simp [Handler.forgetPeers, hk, Table.lookup_retain, Option.filter_eq_some_iff]
  refine ⟨?_, ?_, ?_, ?_, ?_, ?_, ?_, ?_⟩
  · intro k x kp hx hkp
    obtain ⟨hn, hx⟩ := hsess k x hx
    obtain ⟨h1, h2⟩ := hc.slot k x kp hx hkp
    exact ⟨h1, (hkeep _ _).mpr ⟨h2, h1 ▸ hn⟩⟩
  · intro idx kp hkp
    obtain ⟨hkp, hn⟩ := (hkeep _ _).mp hkp
    obtain ⟨h1, x, hx, hm⟩ := hc.indexed idx kp hkp
    refine ⟨h1, x, ?_, hm⟩
    simp [Running.on, Handler.forgetPeers, hs, lookup_foldl_erase, hn, hx]
  · exact fun k x hx => hc.ordered k x (hsess k x hx).2
  · exact fun i a ha => hc.own i a (hpend i a ha).1
  · exact fun i j a b ha hb => hc.alone i j a b (hpend i a ha).1 (hpend j b hb).1
  · intro i a ha
    have hnone := hc.apart i a (hpend i a ha).1
    cases hl : ((gone.foldl Handler.takePeerLocked s.handler).forgetPeers gone).keypairs.lookup i with
    | none => exact hl
    | some kp => simp [((hkeep _ _).mp hl).1] at hnone
  · intro i a ha
    obtain ⟨ha, hn⟩ := hpend i a ha
    have := hc.pending_known i a ha
    rwa [Running.on, Handler.forgetPeers, lookup_takePeers, if_neg hn]
  · intro k x hx
    obtain ⟨hn, hx⟩ := hsess k x hx
    have := hc.session_known k x hx
    rwa [Running.on, Handler.forgetPeers, lookup_takePeers, if_neg hn]

theorem Consistent.pend (hc : Consistent s) {idx : Index} {hs : Handshake} (hfree : s.handler.inUse idx = false)
    (hidx : hs.localIndex = idx) (hpeer : (s.handler.peers.lookup hs.remoteStatic).isSome = true)
    (honly : ∀ i old, s.handler.handshakes.lookup i = some old → old.remoteStatic ≠ hs.remoteStatic) :
    Consistent (s.on { s.handler with handshakes := s.handler.handshakes.insert idx hs }) := by
  have hback : ∀ i a, (s.handler.handshakes.insert idx hs).lookup i = some a →
      (i = idx ∧ a = hs) ∨ s.handler.handshakes.lookup i = some a := by
    intro i a ha
    rw [Table.lookup_insert_eq] at ha
    split at ha
    · next he => exact .inl ⟨he, (Option.some.inj ha).symm⟩
    · exact .inr ha
  simp only [Handler.inUse, Bool.or_eq_false_iff, Option.isSome_eq_false_iff, Option.isNone_iff_eq_none] at hfree
  refine { hc with own := ?_, alone := ?_, apart := ?_, pending_known := ?_ }
  · intro i a ha
    rcases hback i a ha with ⟨rfl, rfl⟩ | ha
    · exact hidx
    · exact hc.own i a ha
  · intro i j a b ha hb hab
    rcases hback i a ha with ⟨rfl, rfl⟩ | ha' <;> rcases hback j b hb with ⟨rfl, rfl⟩ | hb'
    · rfl
    · exact absurd hab.symm (honly j b hb')
    · exact absurd hab (honly i a ha')
    · exact hc.alone i j a b ha' hb' hab
  · intro i a ha
    rcases hback i a ha with ⟨rfl, rfl⟩ | ha
    · exact hfree.2
    · exact hc.apart i a ha
  · intro i a ha
    rcases hback i a ha with ⟨rfl, rfl⟩ | ha
    · exact hpeer
    · exact hc.pending_known i a ha

theorem Consistent.sessionOr (hc : Consistent s) (key : PublicKey) (received sent : Instant) :
    (s.handler.sessionOr key received sent).Ordered s.last ∧
      ∀ y, y ∈ (s.handler.sessionOr key received sent).slots ↔
        y.peerKey = key ∧ s.handler.keypairs.lookup y.localIndex = some y := by
  unfold Handler.sessionOr
  cases hx : s.handler.sessions.lookup key with
  | none =>
    refine ⟨ordered_empty received sent, fun y => ⟨fun hy => by simp [Session.slots] at hy, ?_⟩⟩
    rintro ⟨rfl, hy⟩
    obtain ⟨-, x, hx', -⟩ := hc.indexed _ y hy
    simp [hx] at hx'
  | some x =>
    refine ⟨hc.ordered key x hx, fun y => ⟨hc.slot key x y hx, ?_⟩⟩
    rintro ⟨rfl, hy⟩
    obtain ⟨-, x', hx', hm⟩ := hc.indexed _ y hy
    rw [hx] at hx'
    exact Option.some.inj hx' ▸ hm

theorem Consistent.install (hc : Consistent s) {received sent : Instant} (hcr : kp.created = s.last)
    (hpend : s.handler.handshakes.lookup kp.localIndex = none)
    (hfree : s.handler.keypairs.lookup kp.localIndex = none)
    (hpeer : (s.handler.peers.lookup kp.peerKey).isSome = true) :
    Consistent (s.on ((s.handler.mint kp).installed kp
      (Handler.place kp.isInitiator (s.handler.sessionOr kp.peerKey received sent) kp))) := by
  obtain ⟨hord, hmem⟩ := hc.sessionOr kp.peerKey received sent
  generalize s.handler.sessionOr kp.peerKey received sent = x at hord hmem
  have hnew : kp ∉ x.slots := fun h => by simp [((hmem kp).mp h).2] at hfree
  obtain ⟨hpo, hpm, hpg⟩ := placed hord hnew hcr
  generalize Handler.place kp.isInitiator x kp = r at hpo hpm hpg
  have hindex : ∀ i y, (Handler.unindex (s.handler.keypairs.insert kp.localIndex kp) r.2).lookup i = some y ↔
      (i = kp.localIndex ∧ y = kp ∨ s.handler.keypairs.lookup i = some y) ∧ ∀ g ∈ r.2, g.localIndex ≠ i := by
    intro i y
    rw [lookup_unindex_eq_some, Table.lookup_insert_eq]
    refine and_congr_left fun _ => ?_
    split
    · next he =>
      subst he
      simp [hfree, eq_comm]
    · next he => simp [he]
  have hgone : ∀ g ∈ r.2, g.peerKey = kp.peerKey ∧ s.handler.keypairs.lookup g.localIndex = some g :=
    fun g hg => (hmem g).mp (hpg g hg)
  have hgoneNew : ∀ g ∈ r.2, g.localIndex ≠ kp.localIndex := by
    intro g hg he
    have hg' := (hgone g hg).2
    rw [he, hfree] at hg'
    cases hg'
  have hsame : ∀ g ∈ r.2, ∀ y, s.handler.keypairs.lookup y.localIndex = some y → g.localIndex = y.localIndex →
      g = y := by
    intro g hg y hy he
    have hg' := (hgone g hg).2
    rw [he, hy] at hg'
    exact (Option.some.inj hg').symm
  have hsess : ∀ k, (s.handler.sessions.insert kp.peerKey r.1).lookup k =
      if k = kp.peerKey then some r.1 else s.handler.sessions.lookup k := fun k => Table.lookup_insert_eq
  refine ⟨?_, ?_, ?_, hc.own, hc.alone, ?_, hc.pending_known, ?_⟩
  · intro k z y hz hy
    replace hz := (hsess k).symm.trans hz
    split at hz
    · next hk =>
      cases hz
      obtain ⟨rfl | hyx, hyg⟩ := (hpm y).mp hy
      · exact ⟨hk.symm, (hindex _ _).mpr ⟨.inl ⟨rfl, rfl⟩, hgoneNew⟩⟩
      · obtain ⟨hyk, hyl⟩ := (hmem y).mp hyx
        exact ⟨hyk.trans hk.symm, (hindex _ _).mpr ⟨.inr hyl, fun g hg he => hyg (hsame g hg y hyl he ▸ hg)⟩⟩
    · next hk =>
      obtain ⟨hyk, hyl⟩ := hc.slot k z y hz hy
      refine ⟨hyk, (hindex _ _).mpr ⟨.inr hyl, fun g hg he => hk ?_⟩⟩
      rw [← hyk, ← hsame g hg y hyl he, (hgone g hg).1]
  · intro i y hy
    obtain ⟨⟨rfl, rfl⟩ | hyl, hyg⟩ := (hindex i y).mp hy
    · exact ⟨rfl, r.1, by simp [Running.on, Handler.installed, Handler.mint, hsess],
        (hpm y).mpr ⟨.inl rfl, fun hg => hnew (hpg y hg)⟩⟩
    · obtain ⟨rfl, z, hz, hm⟩ := hc.indexed i y hyl
      refine ⟨rfl, ?_⟩
      by_cases hk : y.peerKey = kp.peerKey
      · refine ⟨r.1, by simp [Running.on, Handler.installed, Handler.mint, hsess, hk], ?_⟩
        exact (hpm y).mpr ⟨.inr ((hmem y).mpr ⟨hk, hyl⟩), fun hg => hyg y hg rfl⟩
      · exact ⟨z, by simp [Running.on, Handler.installed, Handler.mint, hsess, hk, hz], hm⟩
  · intro k z hz
    replace hz := (hsess k).symm.trans hz
    split at hz
    · cases hz
      exact hpo
    · exact hc.ordered k z hz
  · intro i a ha
    have hne : i ≠ kp.localIndex := by
      rintro rfl
      exact absurd (hpend.symm.trans ha) (by simp)
    cases hl : (Handler.unindex (s.handler.keypairs.insert kp.localIndex kp) r.2).lookup i with
    | none => exact hl
    | some y =>
      obtain ⟨⟨h1, -⟩ | h1, -⟩ := (hindex i y).mp hl
      · exact absurd h1 hne
      · exact absurd (hc.apart i a ha) (by simp [h1])
  · intro k z hz
    replace hz := (hsess k).symm.trans hz
    split at hz
    · next hk => exact hk ▸ hpeer
    · exact hc.session_known k z hz

theorem Consistent.promote (hc : Consistent s) {next : Keypair} {key : PublicKey}
    (hx : s.handler.sessions.lookup key = some x) (hn : x.keypairNext = some next) :
    Consistent (s.on { s.handler with
      sessions := s.handler.sessions.insert key (x.promoted next)
      keypairs := Handler.unindex s.handler.keypairs x.keypairPrev.toList }) := by
  obtain ⟨hpo, hpm⟩ := (hc.ordered key x hx).promoted hn
  have hgone : ∀ g ∈ x.keypairPrev.toList, g ∈ x.slots := fun g hg =>
    mem_slots.mpr (.inr (.inl (by simpa using hg)))
  have hsess : ∀ k, (s.handler.sessions.insert key (x.promoted next)).lookup k =
      if k = key then some (x.promoted next) else s.handler.sessions.lookup k := fun k => Table.lookup_insert_eq
  refine ⟨?_, ?_, ?_, hc.own, hc.alone, ?_, hc.pending_known, ?_⟩
  · intro k z y hz hy
    replace hz := (hsess k).symm.trans hz
    split at hz
    · next hk =>
      subst hk
      cases hz
      obtain ⟨hyx, hyp⟩ := (hpm y).mp hy
      obtain ⟨h1, h2⟩ := hc.slot k x y hx hyx
      exact ⟨h1, lookup_unindex_eq_some.mpr ⟨h2, fun g hg he => hyp (hc.slot_inj hx (hgone g hg) hx hyx he ▸ hg)⟩⟩
    · next hk =>
      obtain ⟨h1, h2⟩ := hc.slot k z y hz hy
      refine ⟨h1, lookup_unindex_eq_some.mpr ⟨h2, fun g hg he => hk ?_⟩⟩
      rw [← h1, ← hc.slot_inj hx (hgone g hg) hz hy he]
      exact (hc.slot key x g hx (hgone g hg)).1
  · intro i y hy
    obtain ⟨hyl, hyg⟩ := lookup_unindex_eq_some.mp hy
    obtain ⟨rfl, z, hz, hm⟩ := hc.indexed i y hyl
    refine ⟨rfl, ?_⟩
    by_cases hk : y.peerKey = key
    · refine ⟨x.promoted next, by simp [Running.on, hsess, hk], (hpm y).mpr ⟨?_, fun hg => hyg y hg rfl⟩⟩
      subst hk
      rw [hx] at hz
      exact Option.some.inj hz ▸ hm
    · exact ⟨z, by simp [Running.on, hsess, hk, hz], hm⟩
  · intro k z hz
    replace hz := (hsess k).symm.trans hz
    split at hz
    · cases hz
      exact hpo
    · exact hc.ordered k z hz
  · intro i a ha
    simp [Running.on, lookup_unindex, hc.apart i a ha]
  · intro k z hz
    replace hz := (hsess k).symm.trans hz
    split at hz
    · next hk => exact hk ▸ hc.session_known key x hx
    · exact hc.session_known k z hz

theorem Consistent.dropExpired (hc : Consistent s) (now : Instant) :
    Consistent (s.on (s.handler.cleanupSessions now)) := by
  have hsess : ∀ k z, (s.handler.cleanupSessions now).sessions.lookup k = some z → ∃ x,
      s.handler.sessions.lookup k = some x ∧ z = Handler.cleanSession now x := by
    intro k z hz
    simp only [Handler.cleanupSessions, Table.lookup_retain, Table.lookup_mapValues, Option.filter_eq_some_iff,
      Option.map_eq_some_iff] at hz
    obtain ⟨⟨x, hx, rfl⟩, -⟩ := hz
    exact ⟨x, hx, rfl⟩
  -- a keypair stays indexed unless it sits in a slot and has expired
  have hindex : ∀ i y, (s.handler.cleanupSessions now).keypairs.lookup i = some y ↔
      s.handler.keypairs.lookup i = some y ∧ Handler.expired now y = false := by
    intro i y
    simp only [Handler.cleanupSessions, lookup_unindex_eq_some]
    refine and_congr_right fun hy => ?_
    obtain ⟨rfl, x, hx, hm⟩ := hc.indexed i y hy
    constructor
    · intro hall
      by_contra he
      exact hall y (List.mem_flatMap.mpr ⟨x, Table.mem_values.mpr ⟨_, hx⟩,
        List.mem_filter.mpr ⟨hm, by simpa using he⟩⟩) rfl
    · intro he g hg hgy
      obtain ⟨x', hx', hg⟩ := List.mem_flatMap.mp hg
      obtain ⟨k', hx'⟩ := Table.mem_values.mp hx'
      obtain ⟨hg, hge⟩ := List.mem_filter.mp hg
      rw [hc.slot_inj hx' hg hx hm hgy, he] at hge
      cases hge
  refine ⟨?_, ?_, ?_, hc.own, hc.alone, ?_, hc.pending_known, ?_⟩
  · intro k z y hz hy
    obtain ⟨x, hx, rfl⟩ := hsess k z hz
    obtain ⟨hy, hye⟩ := mem_slots_cleanSession.mp hy
    obtain ⟨h1, h2⟩ := hc.slot k x y hx hy
    exact ⟨h1, (hindex _ _).mpr ⟨h2, hye⟩⟩
  · intro i y hy
    obtain ⟨hyl, hye⟩ := (hindex i y).mp hy
    obtain ⟨rfl, x, hx, hm⟩ := hc.indexed i y hyl
    have hmc := mem_slots_cleanSession.mpr ⟨hm, hye⟩
    refine ⟨rfl, Handler.cleanSession now x, ?_, hmc⟩
    simp [Running.on, Handler.cleanupSessions, Table.lookup_retain, Table.lookup_mapValues, hx,
      keepsSession_of_mem (hc.ordered _ x hx).cleanSession hmc]
  · intro k z hz
    obtain ⟨x, hx, rfl⟩ := hsess k z hz
    exact (hc.ordered k x hx).cleanSession
  · intro i a ha
    simp [Running.on, Handler.cleanupSessions, lookup_unindex, hc.apart i a ha]
  · intro k z hz
    obtain ⟨x, hx, rfl⟩ := hsess k z hz
    exact hc.session_known k x hx

theorem Move.consistent (hm : Move P s s') (hc : Consistent s) : Consistent s' := by
  cases hm with
  | tick hT => exact { hc with ordered := fun k x hx => (hc.ordered k x hx).mono hT }
  | quiet hq => exact hc.quiet hq
  | touch hf => exact hc.touch hf
  | @addPeer key p =>
    refine hc.fewer rfl rfl (fun _ _ hl => hl) fun k hk => ?_
    rw [Table.lookup_insert_eq]
    split
    · rfl
    · exact hk
  | forget gone => exact hc.forget gone
  | supersede key =>
    exact hc.fewer rfl rfl (fun _ _ hl => (Option.filter_eq_some_iff.mp (Table.lookup_retain.symm.trans hl)).1)
      fun _ hk => hk
  | pend hfree hidx hpeer honly => exact hc.pend hfree hidx hpeer honly
  | complete idx =>
    refine hc.fewer rfl rfl (fun i a ha => ?_) fun _ hk => hk
    rw [Table.lookup_erase_eq] at ha
    split at ha
    · cases ha
    · exact ha
  | mint => exact hc.fewer rfl rfl (fun _ _ hl => hl) fun _ hk => hk
  | install _ hcr hpend hfree hpeer => exact hc.install hcr hpend hfree hpeer
  | @promote _ kp =>
    rcases receivedWithKeypair_cases s.handler kp with he | ⟨x, next, hx, hn, -, hq⟩
    · rw [he]
      exact hc
    · exact (hc.promote hx hn).quiet hq
  | dropStale =>
    exact hc.fewer rfl rfl (fun _ _ hl => (Option.filter_eq_some_iff.mp (Table.lookup_retain.symm.trans hl)).1)
      fun _ hk => hk
  | dropExpired => exact hc.dropExpired _
  | close => constructor <;> simp [Running.on, Handler.close, Handler.Own]
  | draw => exact hc.fewer rfl rfl (fun _ _ hl => hl) fun _ hk => hk
  | sealed => exact hc.fewer rfl rfl (fun _ _ hl => hl) fun _ hk => hk
  | opened => exact hc.fewer rfl rfl (fun _ _ hl => hl) fun _ hk => hk
  | refused => exact hc.fewer rfl rfl (fun _ _ hl => hl) fun _ hk => hk

theorem consistent_new (e : Env) (privateKey : PrivateKey) (threshold limit : Option ℕ) (t : Instant) :
    Consistent ⟨Handler.new P e privateKey threshold limit, t⟩ := by
  constructor <;> simp [Handler.new, Handler.Own]

/-- What a handler's tables say of each other: the index holds exactly what the slots hold, each under
its own index and so at most three for a peer; the previous keypair is no younger than the current
one; pending handshakes and keypairs share no index; only known peers have anything. -/
structure Handler.TablesAgree (h : Handler) : Prop where
  index : ∀ idx kp, h.keypairs.lookup idx = some kp ↔
    kp.localIndex = idx ∧ ∃ x, h.sessions.lookup kp.peerKey = some x ∧ kp ∈ x.slots
  slots : ∀ key x kp, h.sessions.lookup key = some x → kp ∈ x.slots → kp.peerKey = key
  three : ∀ key, (h.keypairs.values.filter (·.peerKey = key)).length ≤ 3
  previous : ∀ key x p, h.sessions.lookup key = some x → x.keypairPrev = some p →
    ∃ c, x.keypairCurrent = some c ∧ p.created ≤ c.created
  pending : ∀ i j a b, h.handshakes.lookup i = some a → h.handshakes.lookup j = some b →
    a.remoteStatic = b.remoteStatic → i = j
  apart : ∀ idx, ¬ ((h.handshakes.lookup idx).isSome = true ∧ (h.keypairs.lookup idx).isSome = true)
  removed : ∀ key, h.peers.lookup key = none → h.sessions.lookup key = none ∧
    (∀ idx hs, h.handshakes.lookup idx = some hs → hs.remoteStatic ≠ key) ∧
    ∀ idx kp, h.keypairs.lookup idx = some kp → kp.peerKey ≠ key

theorem Consistent.three (hc : Consistent s) (key : PublicKey) :
    (s.handler.keypairs.values.filter (·.peerKey = key)).length ≤ 3 := by
  have hkeys : s.handler.keypairs.values.map (·.localIndex) = s.handler.keypairs.keys := by
    simp only [Table.values, AList.keys, List.keys, List.map_map]
    refine List.map_congr_left fun e he => ?_
    exact (hc.indexed e.1 e.2 (Table.lookup_eq_some.mpr he)).1
  have hnd : s.handler.keypairs.values.Nodup := List.Nodup.of_map _ (hkeys ▸ s.handler.keypairs.keys_nodup)
  have hin : ∀ kp ∈ s.handler.keypairs.values.filter (·.peerKey = key),
      ∃ x, s.handler.sessions.lookup key = some x ∧ kp ∈ x.slots := by
    intro kp hkp
    obtain ⟨hkp, hk⟩ := List.mem_filter.mp hkp
    obtain ⟨idx, hl⟩ := Table.mem_values.mp hkp
    obtain ⟨-, x, hx, hm⟩ := hc.indexed idx kp hl
    rw [of_decide_eq_true hk] at hx
    exact ⟨x, hx, hm⟩
  cases hx : s.handler.sessions.lookup key with
  | none =>
    have hnil : s.handler.keypairs.values.filter (·.peerKey = key) = [] := by
      refine List.eq_nil_iff_forall_not_mem.mpr fun kp hkp => ?_
      obtain ⟨x, hx', -⟩ := hin kp hkp
      simp [hx] at hx'
    rw [hnil]
    exact Nat.zero_le 3
  | some x =>
    have hsub : s.handler.keypairs.values.filter (·.peerKey = key) ⊆ x.slots := by
      intro kp hkp
      obtain ⟨x', hx', hm⟩ := hin kp hkp
      rw [hx] at hx'
      exact Option.some.inj hx' ▸ hm
    calc _ ≤ x.slots.length := ((hnd.filter _).subperm hsub).length_le
      _ ≤ 3 := by
        simp only [Session.slots, List.length_append]
        have hone : ∀ o : Option Keypair, o.toList.length ≤ 1 := by rintro (_ | _) <;> simp
        have := hone x.keypairCurrent
        have := hone x.keypairPrev
        have := hone x.keypairNext
        omega

theorem Consistent.tablesAgree (hc : Consistent s) : s.handler.TablesAgree where
  index idx kp := by
    refine ⟨hc.indexed idx kp, ?_⟩
    rintro ⟨rfl, x, hx, hm⟩
    exact (hc.slot _ x kp hx hm).2
  slots key x kp hx hm := (hc.slot key x kp hx hm).1
  three := hc.three
  previous key x p hx hp := (hc.ordered key x hx).prev p hp
  pending := hc.alone
  apart idx := by
    rintro ⟨h1, h2⟩
    obtain ⟨a, ha⟩ := Option.isSome_iff_exists.mp h1
    simp [hc.apart idx a ha] at h2
  removed key hk := by
    refine ⟨?_, ?_, ?_⟩
    · cases hx : s.handler.sessions.lookup key with
      | none => rfl
      | some x => simpa [hk] using hc.session_known key x hx
    · rintro idx a ha rfl
      simpa [hk] using hc.pending_known idx a ha
    · rintro idx kp hkp rfl
      obtain ⟨-, x, hx, -⟩ := hc.indexed idx kp hkp
      simpa [hk] using hc.session_known _ x hx

end

end PktKit.Wg
