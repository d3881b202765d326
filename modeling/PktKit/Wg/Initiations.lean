import PktKit.Wg.Moves

/-! # Initiations and the memory of removed peers

A peer's last timestamp goes from its entry to the tombstones when it is removed, and back when it is
added again. What a call does to timestamps is a chain of deeds: nothing, adding a peer, taking one
out, accepting an initiation.
-/

namespace PktKit.Wg
open Foundations Foundations.Actions

/-! ## What is accepted and what is removed -/

namespace Handler

variable (P : Primitives)

/-- The first part of answering an initiation, up to its being accepted. -/
def takeInitiation (e : Env) (replay : Bool) (data : List UInt8) (addr : SocketAddr) :
    Action (PacketResult ⊕ Initiation) := do
  if data.length ≠ MESSAGE_INITIATION_SIZE then fail .invalidData "initiation too short"
  if !(← get).cookieChecker.checkMac1 P data then fail .invalidData "invalid MAC1"
  match ← admitInitiation P e replay data addr with
  | some reply => return .inl reply
  | none =>
    let i ← ofExcept ((← get).openInitiation P data)
    if !(← get).isAuthorizedPeer i.remoteStatic (e.now 5) then fail .permissionDenied "unauthorized peer"
    acceptPeerInitiation i.remoteStatic i.timestamp (e.now 6)
    return .inr i

def answerInitiation (e : Env) (i : Initiation) : Action PacketResult := do
  let localIdx ← allocateIndex e
  let h ← get
  let (body, chainKey) ← ofExcept (buildResponse P e i localIdx (h.preshared i.remoteStatic))
  let mac1 := P.blake2sMac128 (P.calculateMac1Key i.remoteStatic).val body
  let kp := initiationKeypair P e h.nextId i localIdx chainKey
  set (h.mint kp)
  installResponderKeypair (e.after 8) i.remoteStatic kp
  modify fun h => h.touchPeerHandshake i.remoteStatic (e.now 11)
  return {
    ty := .handshakeResponse
    response := body ++ mac1.val ++ List.replicate 16 0
    peerKey := i.remoteStatic }

theorem bind_apply {α β : Type} (m : Action α) (f : α → Action β) (h : Handler) : (m >>= f) h =
    match m h with
    | .ok a h => f a h
    | .error err h => .error err h := by
  simp only [bind, EStateM.bind]
  cases m h <;> rfl

theorem get_apply (h : Handler) : (get : Action Handler) h = .ok h h := rfl

theorem ofExcept_ok {α : Type} (a : α) (h : Handler) : (ofExcept (.ok a) : Action α) h = .ok a h := rfl

theorem processHandshakeInitiation_eq (e : Env) (replay : Bool) (data : List UInt8) (addr : SocketAddr) :
    processHandshakeInitiation P e replay data addr = (do
      match ← takeInitiation P e replay data addr with
      | .inl reply => return reply
      | .inr i => answerInitiation P e i) := by
  funext h
  unfold processHandshakeInitiation takeInitiation
  by_cases hlen : data.length ≠ MESSAGE_INITIATION_SIZE
  · simp only [if_pos hlen]
    rfl
  by_cases hmac : (!h.cookieChecker.checkMac1 P data) = true
  · simp only [if_neg hlen, bind_apply, get_apply, if_pos hmac]
    rfl
  simp only [if_neg hlen, bind_apply, get_apply, if_neg hmac]
  cases admitInitiation P e replay data addr h with
  | error err h1 => rfl
  | ok reply h1 =>
    cases reply with
    | some reply => rfl
    | none =>
      simp only [bind_apply, get_apply]
      cases openInitiation P h1 data with
      | error err => rfl
      | ok i =>
        by_cases hauth : (!h1.isAuthorizedPeer i.remoteStatic (e.now 5)) = true
        · simp only [ofExcept_ok, bind_apply, get_apply, if_pos hauth]
          rfl
        · simp only [ofExcept_ok, bind_apply, get_apply, if_neg hauth]
          cases acceptPeerInitiation i.remoteStatic i.timestamp (e.now 6) h1 with
          | error err h2 => rfl
          | ok _ h2 =>
            change _ = answerInitiation P e i h2
            simp only [answerInitiation, bind_apply, get_apply]

/-- The initiation a packet is accepted as: who sent it, and its timestamp. -/
def acceptsPacket (e : Env) (replay : Bool) (data : List UInt8) (addr : SocketAddr) (h : Handler) :
    Option (PublicKey × List UInt8) :=
  if 4 ≤ data.length ∧ ofLeBytes (slice data 0 4) = MESSAGE_INITIATION_TYPE then
    match takeInitiation P e replay data addr h with
    | .ok (.inr i) _ => some (i.remoteStatic, i.timestamp)
    | _ => none
  else none

end Handler

def Op.accepts (P : Primitives) (e : Env) (h : Handler) : Op → Option (PublicKey × List UInt8)
  | .processPacket data addr => Handler.acceptsPacket P e false data addr h
  | .acceptUnknownPeer key packet addr =>
    match Handler.addUnknownPeer P e key h with
    | .ok _ h =>
      if h.isAuthorizedPeer key (e.now 1) then Handler.acceptsPacket P (e.after 2) true packet addr h else none
    | .error .. => none
  | _ => none

/-- The peers that were in the table before and are not any more. -/
def Handler.gone (h h' : Handler) : List PublicKey := h.peers.keys.filter fun key => (h'.peers.lookup key).isNone

/-- A handler, the initiations it has accepted, and the peers each of its calls has removed. -/
structure Story where
  running : Running
  accepted : List (PublicKey × List UInt8) := []
  removed : List (List PublicKey) := []

def Story.step (P : Primitives) (s : Story) (c : Call) : Option Story :=
  (s.running.step P c).map fun running =>
    { running
      accepted := s.accepted ++ (c.op.accepts P c.env s.running.handler).toList
      removed := s.removed ++ [s.running.handler.gone running.handler] }

/-- The timestamps of the initiations of a peer, as they were accepted. -/
def Story.timestamps (s : Story) (key : PublicKey) : List (List UInt8) :=
  (s.accepted.filter (·.1 = key)).map (·.2)

/-- The peers removed since a peer was first removed, that call included. -/
def Story.removedSinceFirst (s : Story) (key : PublicKey) : Finset PublicKey :=
  ((s.removed.dropWhile (key ∉ ·)).flatten.toFinset).erase key

/-- The other peers removed since a peer was last removed. -/
def Story.removedSinceLast (s : Story) (key : PublicKey) : Finset PublicKey :=
  (s.removed.reverse.takeWhile (key ∉ ·)).flatten.toFinset

/-! ## Calls that leave timestamps alone -/

/-- An action leaves timestamps alone, however it ends. -/
def Stays {α : Type} (m : Action α) : Prop := ∀ s h, Keeps s h → wp m (fun _ => Keeps s) (fun _ => Keeps s) h

section Keeps

variable {P : Primitives} {e : Env} {key : PublicKey}

theorem Rests.stays {α : Type} {m : Action α} (hm : Rests P m) : Stays m := by
  intro s h hs
  exact wp_mono (fun _ _ hr => hs.trans hr.keeps) (fun _ _ hr => hs.trans hr.keeps) (hm ⟨h, 0⟩ h .refl)

theorem stays_install {kp : Keypair} {place : Session → Keypair → Session × List Keypair} :
    Stays (Handler.install e key kp place) := by
  intro s h hs
  simp only [Handler.install, ↓wp_bind, ↓wp_get, ↓wp_ite, ↓wp_fail, ↓wp_set]
  exact ⟨fun _ => hs, fun _ => ⟨fun _ => hs, fun _ => hs.trans (.same (by rfl) (by rfl))⟩⟩

theorem stays_processHandshakeResponse {data : List UInt8} :
    Stays (Handler.processHandshakeResponse P e data) := by
  intro s h hs
  simp only [Handler.processHandshakeResponse, ↓wp_bind, ↓wp_get, ↓wp_ite, ↓wp_fail, ↓wp_ofExcept, ↓wp_modify,
    ↓wp_set, ↓wp_pure, Handler.completeHandshake]
  refine ⟨fun r _ => ⟨fun _ => hs.trans (.same (by rfl) (by rfl)), fun _ => ?_⟩, fun _ _ => hs⟩
  refine wp_mono ?_ (fun _ _ => id) (stays_install s _ (hs.trans (keeps_of_modify rfl rfl fun _ => rfl)))
  intro _ h1 hs1
  refine wp_mono ?_ (fun _ _ => id) (rests_encryptInto (P := P).stays s _ (hs1.trans (keeps_of_modify rfl rfl fun _ => rfl)))
  rintro (err | ⟨keepalive, rekey⟩) h2 hs2 <;> exact hs2

theorem stays_answerInitiation {i : Handler.Initiation} : Stays (Handler.answerInitiation P e i) := by
  intro s h hs
  simp only [Handler.answerInitiation, ↓wp_bind, ↓wp_get, ↓wp_ofExcept, ↓wp_set, ↓wp_modify, ↓wp_pure]
  refine wp_mono ?_ (by rintro _ _ rfl; exact hs) wp_allocateIndex
  rintro idx _ ⟨rfl, -⟩
  refine ⟨fun r _ => ?_, fun _ _ => hs⟩
  refine wp_mono ?_ (fun _ _ => id) (stays_install s _ (hs.trans (.same (by rfl) (by rfl))))
  exact fun _ h1 hs1 => hs1.trans (keeps_of_modify rfl rfl fun _ => rfl)

end Keeps

/-! ## Deeds -/

/-- An initiation of a peer is accepted by its timestamp: later than the last, and the last from then on. -/
structure Accepted (h : Handler) (key : PublicKey) (ts : List UInt8) (h' : Handler) : Prop where
  exists_entry : ∃ p p' : PeerEntry, h.peers.lookup key = some p ∧ p'.publicKey = p.publicKey ∧
    p'.hasTimestamp = true ∧ p'.lastTimestamp.val = ts ∧ (p.hasTimestamp = true → p.lastTimestamp.val < ts) ∧
    h' = { h with peers := h.peers.insert key p' }

/-- What a packet does to timestamps: nothing, unless it is accepted as an initiation. -/
inductive Receives (h : Handler) : Option (PublicKey × List UInt8) → Handler → Prop
  | keeps {h' : Handler} : Keeps h h' → Receives h none h'
  | accept {h₁ h₂ h' : Handler} {key : PublicKey} {ts : List UInt8} : Keeps h h₁ → Accepted h₁ key ts h₂ →
      Keeps h₂ h' → Receives h (some (key, ts)) h'

/-- What a call does to timestamps, and the initiations it accepts on the way; the peers it takes out
are in `gone`. -/
inductive Deeds (gone : List PublicKey) (h : Handler) : List (PublicKey × List UInt8) → Handler → Prop
  | refl : Deeds gone h [] h
  | keeps {acc : List (PublicKey × List UInt8)} {h₁ h₂ : Handler} : Deeds gone h acc h₁ → Keeps h₁ h₂ →
      Deeds gone h acc h₂
  | enter {acc : List (PublicKey × List UInt8)} {h₁ : Handler} {key : PublicKey} {p : PeerEntry} :
      Deeds gone h acc h₁ → h₁.peers.lookup key = none → p.mark = (key, h₁.tombstones.last.lookup key) →
      Deeds gone h acc { h₁ with peers := h₁.peers.insert key p }
  | leave {acc : List (PublicKey × List UInt8)} {h₁ : Handler} {key : PublicKey} {p : PeerEntry} :
      Deeds gone h acc h₁ → key ∈ gone → h₁.peers.lookup key = some p →
      Deeds gone h acc { h₁ with peers := h₁.peers.erase key, tombstones := h₁.tombstones.record p }
  | accept {acc : List (PublicKey × List UInt8)} {h₁ h₂ : Handler} {key : PublicKey} {ts : List UInt8} :
      Deeds gone h acc h₁ → Accepted h₁ key ts h₂ → Deeds gone h (acc ++ [(key, ts)]) h₂

/-- A packet opens to as many bytes as were sealed. -/
def Primitives.KeepsLength (P : Primitives) : Prop :=
  ∀ k n ad ct tag pt, P.decrypt k n ad ct tag = some pt → pt.length = ct.length

theorem Primitives.plain_keepsLength : plain.KeepsLength :=
  fun _ _ _ _ _ _ h => congrArg List.length (Option.some.inj h).symm

section Deeds

variable {P : Primitives} {e : Env} {s h h' : Handler} {key : PublicKey} {gone : List PublicKey}
  {acc : List (PublicKey × List UInt8)}

theorem aeadOpen_length (hP : P.KeepsLength) {k : Bytes 32} {counter : ℕ} {ct ad pt : List UInt8}
    (h : P.aeadOpen k counter ct ad = .ok pt) : pt.length + 16 = ct.length := by
  simp only [Primitives.aeadOpen, except_bind_ok] at h
  obtain ⟨⟨body, tag⟩, hsplit, hopen⟩ := h
  rw [Primitives.splitTag] at hsplit
  split at hsplit
  · cases hsplit
  next hlen =>
  cases hsplit
  simp only at hopen
  split at hopen
  · next hdec =>
    cases hopen
    rw [hP _ _ _ _ _ _ hdec, List.length_take]
    omega
  · cases hopen

theorem timestamp_length (hP : P.KeepsLength) {data : List UInt8} {i : Handler.Initiation}
    (hlen : data.length = MESSAGE_INITIATION_SIZE) (h : s.openInitiation P data = .ok i) :
      i.timestamp.length = 12 := by
  simp only [Handler.openInitiation, except_guard_ok, except_bind_ok] at h
  obtain ⟨-, _, -, _, -, -, _, -, ts, hts, hi⟩ := h
  cases hi
  have hopen : ∃ k counter ad, P.aeadOpen k counter (slice data 88 116) ad = .ok ts := by
    unfold Primitives.orElse at hts
    split at hts
    · next hok =>
      cases hts
      exact ⟨_, _, _, hok⟩
    · cases hts
  obtain ⟨k, counter, ad, hopen⟩ := hopen
  have hslice : (slice data 88 116).length = 28 := by rw [slice_length (by rw [hlen]; decide)]
  have := aeadOpen_length hP hopen
  dsimp only
  omega

theorem accepted_acceptPeerInitiation {ts : List UInt8} {now : Instant} (hts : ts.length = 12) :
    wp (Handler.acceptPeerInitiation key ts now) (fun _ => Accepted h key ts) (fun _ h' => h' = h) h := by
  simp only [Handler.acceptPeerInitiation, ↓wp_bind, ↓wp_get]
  split
  · exact rfl
  next p hp =>
  simp only [↓wp_bind, ↓wp_ite, ↓wp_fail, ↓wp_set]
  refine ⟨fun _ => trivial, fun hnew => ⟨fun _ => trivial, fun _ => ⟨p, { p with
    lastTimestamp := Bytes.ofSlice 12 (ts.take (min ts.length 12) ++ p.lastTimestamp.val.drop (min ts.length 12))
    hasTimestamp := true
    lastInitiationConsumed :=
      if p.lastInitiationConsumed.all (decide <| · < now) then some now else p.lastInitiationConsumed
    lastHandshake := some now }, hp, rfl, rfl, ?_, fun hhas => ?_, rfl⟩⟩⟩
  · simp [Bytes.ofSlice, hts]
  · simpa only [hhas, Bool.true_and, decide_eq_true_eq, List.not_le] using hnew

theorem receives_takeInitiation (hP : P.KeepsLength) (e : Env) (replay : Bool) (data : List UInt8)
    (addr : SocketAddr) :
    wp (Handler.takeInitiation P e replay data addr)
      (fun r => Receives h (r.elim (fun _ => none) fun i => some (i.remoteStatic, i.timestamp)))
      (fun _ => Keeps h) h := by
  simp only [Handler.takeInitiation, ↓wp_bind, ↓wp_get, ↓wp_ite, ↓wp_fail]
  refine ⟨fun _ => .same rfl rfl, fun hlen => ⟨fun _ => .same rfl rfl, fun _ => ?_⟩⟩
  refine wp_mono ?_ (fun _ _ hs => hs) (rests_admitInitiation.stays h h (.same rfl rfl))
  rintro (_ | reply) h1 hs1
  swap
  · exact .keeps hs1
  simp only [↓wp_bind, ↓wp_get, ↓wp_ofExcept, ↓wp_ite, ↓wp_fail, ↓wp_pure]
  refine ⟨fun i hi => ⟨fun _ => hs1, fun _ => ?_⟩, fun _ _ => hs1⟩
  refine wp_mono (fun _ h2 hacc => ?_) ?_ (accepted_acceptPeerInitiation
    (timestamp_length hP (not_not.mp hlen) hi))
  · exact .accept hs1 hacc (.same (by rfl) (by rfl))
  · rintro _ _ rfl
    exact hs1

theorem Receives.trans {r : Option (PublicKey × List UInt8)} (hr : Receives s r h) (hs : Keeps h h') :
    Receives s r h' := by
  cases hr with
  | keeps hs1 => exact .keeps (hs1.trans hs)
  | accept hs1 hacc hs2 => exact .accept hs1 hacc (hs2.trans hs)

/-- A packet is accepted as an initiation or leaves timestamps alone. -/
theorem receives_processPacketAs (hP : P.KeepsLength) (e : Env) (replay : Bool) (data : List UInt8)
    (addr : SocketAddr) :
    wp (Handler.processPacketAs P e replay data addr)
      (fun _ => Receives h (Handler.acceptsPacket P e replay data addr h))
      (fun _ => Receives h (Handler.acceptsPacket P e replay data addr h)) h := by
  have hother : ¬ (4 ≤ data.length ∧ ofLeBytes (slice data 0 4) = MESSAGE_INITIATION_TYPE) → ∀ h', Keeps h h' →
      Receives h (Handler.acceptsPacket P e replay data addr h) h' := fun hno h' hs => by
    rw [Handler.acceptsPacket, if_neg hno]
    exact .keeps hs
  have hstays : ∀ {m : Action PacketResult}, Stays m →
      ¬ (4 ≤ data.length ∧ ofLeBytes (slice data 0 4) = MESSAGE_INITIATION_TYPE) → wp m
        (fun _ => Receives h (Handler.acceptsPacket P e replay data addr h))
        (fun _ => Receives h (Handler.acceptsPacket P e replay data addr h)) h := fun hm hno =>
    wp_mono (fun _ => hother hno) (fun _ => hother hno) (hm h h (.same rfl rfl))
  simp only [Handler.processPacketAs, ↓wp_bind, ↓wp_ite, ↓wp_fail]
  have hsame : ¬ (4 ≤ data.length ∧ ofLeBytes (slice data 0 4) = MESSAGE_INITIATION_TYPE) → _ :=
    fun hno => hother hno h (.same rfl rfl)
  refine ⟨fun hshort => hsame (by omega), fun hlong => ⟨fun hty => ?_, fun hty =>
    ⟨fun _ => hstays stays_processHandshakeResponse (by tauto), fun _ =>
    ⟨fun _ => hstays rests_processCookieReply.stays (by tauto), fun _ =>
    ⟨fun _ => hstays rests_processDataPacket.stays (by tauto), fun _ => hsame (by tauto)⟩⟩⟩⟩⟩
  have hyes : 4 ≤ data.length ∧ ofLeBytes (slice data 0 4) = MESSAGE_INITIATION_TYPE := ⟨by omega, hty⟩
  have htake := receives_takeInitiation (h := h) hP e replay data addr
  rw [Handler.processHandshakeInitiation_eq, wp_bind, Handler.acceptsPacket, if_pos hyes]
  simp only [wp] at htake ⊢
  cases hr : Handler.takeInitiation P e replay data addr h with
  | error err h1 =>
    rw [hr] at htake
    exact .keeps htake
  | ok r h1 =>
    rw [hr] at htake
    cases r with
    | inl reply => exact htake
    | inr i =>
      have hans : wp (Handler.answerInitiation P e i) _ _ h1 := stays_answerInitiation h1 h1 (.same rfl rfl)
      exact wp_mono (fun _ _ hs => htake.trans hs) (fun _ _ hs => htake.trans hs) hans

theorem Deeds.receives {r : Option (PublicKey × List UInt8)} (hd : Deeds gone s acc h) (hr : Receives h r h') :
    Deeds gone s (acc ++ r.toList) h' := by
  cases hr with
  | keeps hs => simpa using hd.keeps hs
  | accept hs1 hacc hs2 => exact ((hd.keeps hs1).accept hacc).keeps hs2

theorem Keeps.lookup_eq_none (hs : Keeps h h') : h'.peers.lookup key = none ↔ h.peers.lookup key = none := by
  have hmarks : (h'.peers.lookup key).map PeerEntry.mark = (h.peers.lookup key).map PeerEntry.mark := hs.marks key
  rw [← Option.map_eq_none_iff (f := PeerEntry.mark), hmarks, Option.map_eq_none_iff]

/-- Packets neither add nor remove peers. -/
theorem Receives.lookup_eq_none {r : Option (PublicKey × List UInt8)} (hr : Receives h r h') :
    h'.peers.lookup key = none ↔ h.peers.lookup key = none := by
  cases hr with
  | keeps hs => exact hs.lookup_eq_none
  | accept hs1 hacc hs2 =>
    obtain ⟨p, p', hp, -, -, -, -, rfl⟩ := hacc
    rw [hs2.lookup_eq_none, ← hs1.lookup_eq_none, Table.lookup_insert_eq]
    split
    · next he =>
      subst he
      rw [hp]
      simp
    · rfl

theorem newEntry_mark {psk : PresharedKey} {hasPsk : Bool} :
    (h.newEntry P key psk hasPsk).mark = (key, h.tombstones.last.lookup key) := by
  simp only [Handler.newEntry, Tombstones.restore, PeerEntry.new]
  split
  · next ts hts => simp [PeerEntry.mark, hts]
  · next hts => simp [PeerEntry.mark, hts]

theorem Deeds.addPeerLocked (hd : Deeds gone s acc h) {unknown : Bool} :
    Deeds gone s acc (h.addPeerLocked P key unknown) := by
  unfold Handler.addPeerLocked
  split
  · next p hp => exact hd.keeps (keeps_insert hp rfl)
  · next hp => exact hd.enter hp newEntry_mark

theorem Deeds.addPeerWithPsk (hd : Deeds gone s acc h) {psk : PresharedKey} :
    Deeds gone s acc (h.addPeerWithPsk P key psk) := by
  unfold Handler.addPeerWithPsk
  split
  · next p hp => exact hd.keeps (keeps_insert hp rfl)
  · next hp => exact hd.enter hp newEntry_mark

theorem Deeds.takePeerLocked (hd : Deeds gone s acc h) (hkey : (h.peers.lookup key).isSome → key ∈ gone) :
    Deeds gone s acc (h.takePeerLocked key) := by
  unfold Handler.takePeerLocked
  split
  · next p hp => exact hd.leave (hkey (by rw [hp]; rfl)) hp
  · exact hd

theorem Deeds.takePeers (hd : Deeds gone s acc h) {keys : List PublicKey}
    (hkeys : ∀ key ∈ keys, (h.peers.lookup key).isSome → key ∈ gone) :
    Deeds gone s acc (keys.foldl Handler.takePeerLocked h) := by
  induction keys generalizing h with
  | nil => exact hd
  | cons key keys ih =>
    refine ih (hd.takePeerLocked (hkeys key List.mem_cons_self)) fun k hk hsome =>
      hkeys k (List.mem_cons_of_mem key hk) ?_
    unfold Handler.takePeerLocked at hsome
    split at hsome
    · rw [Table.lookup_erase_eq] at hsome
      split at hsome
      · cases hsome
      · exact hsome
    · exact hsome

theorem mem_gone : key ∈ h.gone h' ↔ (h.peers.lookup key).isSome ∧ h'.peers.lookup key = none := by
  rw [Handler.gone, List.mem_filter, ← AList.mem_keys, AList.lookup_isSome, Option.isNone_iff_eq_none]

/-- Removing peers, and their sessions after them. -/
theorem deeds_forget (keys : List PublicKey) (hpeers : h'.peers = (keys.foldl Handler.takePeerLocked h).peers)
    (htomb : h'.tombstones = (keys.foldl Handler.takePeerLocked h).tombstones) : Deeds (h.gone h') h [] h' := by
  have htake : Deeds (h.gone h') h [] (keys.foldl Handler.takePeerLocked h) :=
    Deeds.refl.takePeers fun key hkey hsome => ?_
  · refine htake.keeps ⟨fun k => ?_, htomb⟩
    rw [Handler.marks, hpeers, Handler.marks]
  · rw [mem_gone, hpeers, lookup_takePeers, if_pos hkey]
    exact ⟨hsome, rfl⟩

theorem deeds_maintenance : Deeds (h.gone (Handler.maintenance e h)) h [] (Handler.maintenance e h) := by
  refine deeds_forget ((h.peers.values.filter fun p =>
    p.acceptedUnknown && p.expiresAt.any fun exp => decide (e.now 0 - exp > EXPIRED_PEER_GRACE)).map
      (·.publicKey)) ?_ ?_
  · simp only [Handler.maintenance, Handler.cleanupSessions, Handler.cleanupHandshakes, Handler.pruneExpiredPeers]
    split <;> rfl
  · simp only [Handler.maintenance, Handler.cleanupSessions, Handler.cleanupHandshakes, Handler.pruneExpiredPeers]
    split <;> rfl

/-- Adding a peer handed out as unknown may take another one out. -/
theorem deeds_addUnknownPeer (P : Primitives) (e : Env) (h : Handler) (key : PublicKey) :
    wp (Handler.addUnknownPeer P e key)
    (fun _ h' => ∃ gone, Deeds gone h [] h' ∧ ∀ k ∈ gone, k ∈ h.gone h') (fun _ h' => h' = h) h := by
  simp only [Handler.addUnknownPeer, ↓wp_bind, ↓wp_get, ↓wp_ite, ↓wp_set]
  refine ⟨fun hfull => ?_, fun _ => ⟨[], Deeds.refl.addPeerLocked, by simp⟩⟩
  have hnone : h.peers.lookup key = none := by
    simp only [Bool.and_eq_true, Option.isNone_iff_eq_none] at hfull
    exact hfull.1
  split
  · exact rfl
  next v hv =>
  rw [wp_set]
  have hpeers : ∀ k, k ≠ key → (((h.takePeerLocked v).addPeerLocked P key true).forgetPeers [v]).peers.lookup k =
      (h.takePeerLocked v).peers.lookup k := fun k hk => by
    have hadd : ∀ g : Handler, (g.addPeerLocked P key true).peers.lookup k = g.peers.lookup k := fun g => by
      unfold Handler.addPeerLocked
      split <;> simp [hk]
    exact hadd _
  by_cases hmem : (h.peers.lookup v).isSome
  · have hvk : v ≠ key := by
      rintro rfl
      rw [hnone] at hmem
      cases hmem
    refine ⟨[v], Deeds.keeps (Deeds.refl.takePeerLocked fun _ => List.mem_singleton_self v).addPeerLocked
      (.same (by rfl) (by rfl)), ?_⟩
    rintro k hk
    rw [List.mem_singleton.mp hk, mem_gone, hpeers v hvk]
    refine ⟨hmem, ?_⟩
    simpa using @lookup_takePeers h [v] v
  · exact ⟨[], Deeds.keeps (Deeds.refl.takePeerLocked fun h => absurd h hmem).addPeerLocked
      (.same (by rfl) (by rfl)), by simp⟩

theorem Deeds.mono {gone' : List PublicKey} (hd : Deeds gone s acc h) (hsub : ∀ k ∈ gone, k ∈ gone') :
    Deeds gone' s acc h := by
  induction hd with
  | refl => exact .refl
  | keeps _ hs ih => exact ih.keeps hs
  | enter _ hnone hp ih => exact ih.enter hnone hp
  | leave _ hkey hp ih => exact ih.leave (hsub _ hkey) hp
  | accept _ hacc ih => exact ih.accept hacc

theorem deeds_acceptUnknownPeer (hP : P.KeepsLength) {packet : List UInt8} {addr : SocketAddr} :
    wp (Handler.acceptUnknownPeer P e key packet addr)
      (fun _ h' => Deeds (h.gone h') h ((Op.acceptUnknownPeer key packet addr).accepts P e h).toList h')
      (fun _ h' => Deeds (h.gone h') h ((Op.acceptUnknownPeer key packet addr).accepts P e h).toList h') h := by
  have hadd := deeds_addUnknownPeer P e h key
  rw [Handler.acceptUnknownPeer, wp_bind]
  simp only [Op.accepts]
  simp only [wp] at hadd
  cases hr : Handler.addUnknownPeer P e key h with
  | error err h1 =>
    rw [hr] at hadd
    obtain rfl : h1 = h := hadd
    simp only [wp, hr]
    exact .refl
  | ok _ h1 =>
    rw [hr] at hadd
    obtain ⟨gone, hd, hsub⟩ : ∃ gone, Deeds gone h [] h1 ∧ ∀ k ∈ gone, k ∈ h.gone h1 := hadd
    rw [wp_of_ok hr]
    simp only [↓wp_bind, ↓wp_get, ↓wp_ite, ↓wp_fail, ↓wp_pure]
    refine ⟨fun hauth => ?_, fun hauth => ?_⟩
    · rw [if_neg (by simpa using hauth)]
      exact hd.mono hsub
    · rw [if_pos (by simpa using hauth)]
      have hdone : ∀ h2, Receives h1 (Handler.acceptsPacket P (e.after 2) true packet addr h1) h2 →
          Deeds (h.gone h2) h (Handler.acceptsPacket P (e.after 2) true packet addr h1).toList h2 :=
            fun h2 hrec => by
        refine (hd.receives hrec).mono fun k hk => ?_
        rw [mem_gone, hrec.lookup_eq_none]
        exact mem_gone.mp (hsub k hk)
      exact wp_mono (fun _ => hdone) (fun _ => hdone) (receives_processPacketAs hP (e.after 2) true packet addr)

theorem deeds_perform (hP : P.KeepsLength) (op : Op) :
    wp (op.perform P e) (fun _ h' => Deeds (h.gone h') h (op.accepts P e h).toList h')
      (fun _ h' => Deeds (h.gone h') h (op.accepts P e h).toList h') h := by
  have hstays : ∀ {α : Type} {m : Action α}, Stays m →
      wp m (fun _ h' => Deeds (h.gone h') h [] h') (fun _ h' => Deeds (h.gone h') h [] h') h := fun hm =>
    wp_mono (fun _ _ hs => Deeds.refl.keeps hs) (fun _ _ hs => Deeds.refl.keeps hs) (hm h h (.same rfl rfl))
  cases op with
  | processPacket data addr =>
    rw [Op.perform, wp_discard]
    exact wp_mono (fun _ _ hr => Deeds.refl.receives hr) (fun _ _ hr => Deeds.refl.receives hr)
      (receives_processPacketAs hP e false data addr)
  | encrypt data key =>
    rw [Op.perform, wp_discard]
    exact hstays rests_encrypt.stays
  | initiateHandshake key =>
    rw [Op.perform, wp_discard]
    exact hstays rests_initiateHandshakeAt.stays
  | addPeer key => exact Deeds.refl.addPeerLocked
  | addPeerWithPsk key psk => exact Deeds.refl.addPeerWithPsk
  | removePeer key => exact deeds_forget [key] rfl rfl
  | setPeerExpiry key at_ => exact Deeds.refl.keeps (keeps_of_modify rfl rfl fun _ => rfl)
  | acceptUnknownPeer key packet addr =>
    rw [Op.perform, wp_discard]
    exact deeds_acceptUnknownPeer hP
  | setPersistentKeepalive key interval => exact Deeds.refl.keeps keeps_withTimers
  | pollTimers rands =>
    rw [Op.perform, wp_discard]
    exact hstays rests_pollTimers.stays
  | maintenance => exact deeds_maintenance
  | close => exact Deeds.refl.keeps (.same (by rfl) (by rfl))

end Deeds

end PktKit.Wg
