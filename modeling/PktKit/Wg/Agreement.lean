import PktKit.Wg.Confirmed

/-! # The two ends of a handshake agree

An initiation that arrives as it was sent is answered, its answer is taken, and each end then holds
the keys of the other the other way round.
-/

namespace PktKit.Wg
open Foundations Foundations.Actions

/-- The keys a handler goes by: its own, and the MAC1 keys that follow from public keys. -/
structure Keyed (P : Primitives) (k : PrivateKey) (h : Handler) : Prop where
  privateKey : h.privateKey = k
  publicKey : h.publicKey = P.x25519Public k
  mac1Key : h.cookieChecker.mac1Key = P.calculateMac1Key h.publicKey
  peer : ∀ key p, h.peers.lookup key = some p → p.publicKey = key ∧ p.cookieGen.mac1Key = P.calculateMac1Key key

section

variable {P : Primitives} {s s' : Running} {h h' : Handler} {k : PrivateKey} {e : Env}

theorem Keyed.congr (hk : Keyed P k h) (h1 : h'.privateKey = h.privateKey) (h2 : h'.publicKey = h.publicKey)
    (h3 : h'.cookieChecker.mac1Key = h.cookieChecker.mac1Key)
    (h4 : ∀ key p, h'.peers.lookup key = some p → ∃ p', h.peers.lookup key = some p' ∧
      p.publicKey = p'.publicKey ∧ p.cookieGen.mac1Key = p'.cookieGen.mac1Key) : Keyed P k h' where
  privateKey := h1.trans hk.privateKey
  publicKey := h2.trans hk.publicKey
  mac1Key := by rw [h3, h2, hk.mac1Key]
  peer key p hp := by
    obtain ⟨p', hp', he1, he2⟩ := h4 key p hp
    rw [he1, he2]
    exact hk.peer key p' hp'

theorem Keyed.quiet (hk : Keyed P k h) (hq : Quiet h h') : Keyed P k h' := by
  refine hk.congr hq.privateKey hq.publicKey hq.mac1Key fun key p hp => ?_
  have hm := hq.peers key
  rw [hp, Option.map_some, eq_comm, Option.map_eq_some_iff] at hm
  obtain ⟨p', hp', he⟩ := hm
  simp only [Prod.mk.injEq] at he
  exact ⟨p', hp', he.1.symm, he.2.symm⟩

theorem Move.keyed (hm : Move P s s') (hk : Keyed P k s.handler) : Keyed P k s'.handler := by
  cases hm with
  | tick => exact hk
  | quiet hq => exact hk.quiet hq
  | @addPeer key p h1 h2 =>
    refine { hk with peer := fun key' p' hp' => ?_ }
    replace hp' := Table.lookup_insert_eq.symm.trans hp'
    split at hp'
    · next he =>
      cases hp'
      exact ⟨h1.trans he.symm, he ▸ h2⟩
    · exact hk.peer key' p' hp'
  | forget gone =>
    obtain ⟨peers, tombstones, he⟩ := takePeers_eq s.handler gone
    have h1 := congrArg Handler.privateKey he
    have h2 := congrArg Handler.publicKey he
    have h3 := congrArg (·.cookieChecker.mac1Key) he
    refine hk.congr h1 h2 h3 fun key p hp => ?_
    replace hp := lookup_takePeers.symm.trans hp
    split at hp
    · cases hp
    · exact ⟨p, hp, rfl, rfl⟩
  | @promote _ kp =>
    rcases receivedWithKeypair_cases s.handler kp with he | ⟨x, next, -, -, -, hq⟩
    · rw [he]
      exact hk
    · exact (Keyed.mk hk.privateKey hk.publicKey hk.mac1Key hk.peer : Keyed P k { s.handler with
        sessions := s.handler.sessions.insert kp.peerKey (x.promoted next)
        keypairs := Handler.unindex s.handler.keypairs x.keypairPrev.toList }).quiet hq
  | _ => exact ⟨hk.privateKey, hk.publicKey, hk.mac1Key, hk.peer⟩

/-! ## The initiation -/

/-- MAC1 of a message whose last two fields are the MACs. -/
theorem checkMac1With_append {key : Bytes 32} {body : List UInt8} (mac2 : Bytes 16) :
    checkMac1With P key (body ++ (P.blake2sMac128 key.val body).val ++ mac2.val) = true := by
  have hl : (body ++ (P.blake2sMac128 key.val body).val ++ mac2.val).length = body.length + 16 + 16 := by
    simp [(P.blake2sMac128 key.val body).property, mac2.property]
  have htake : (body ++ (P.blake2sMac128 key.val body).val ++ mac2.val).take body.length = body := by
    rw [List.append_assoc, List.take_left]
  have hslice : slice (body ++ (P.blake2sMac128 key.val body).val ++ mac2.val) body.length (body.length + 16) =
      (P.blake2sMac128 key.val body).val := by
    simp [slice_skip, slice_head]
  simp only [checkMac1With, hl, Nat.add_sub_cancel, htake, hslice]
  simp

/-- The MACs written by a handler go over the last 32 bytes; MAC1 is for the receiver's public key. -/
theorem cookieAddMacs_append {key : PublicKey} {body : List UInt8} (now : Instant) (hk : Keyed P k h)
    (hpeer : (h.peers.lookup key).isSome = true) : ∃ mac2 : Bytes 16,
      (h.cookieAddMacs P key (body ++ List.replicate 32 0) now).2 =
        body ++ (P.blake2sMac128 (P.calculateMac1Key key).val body).val ++ mac2.val := by
  obtain ⟨p, hp⟩ := Option.isSome_iff_exists.mp hpeer
  have hl : (body ++ List.replicate 32 (0 : UInt8)).length = body.length + 16 + 16 := by simp
  have htake : (body ++ List.replicate 32 (0 : UInt8)).take body.length = body := List.take_left
  simp only [Handler.cookieAddMacs, hp, CookieGenerator.addMacs, hl, Nat.add_sub_cancel, htake,
    (hk.peer key p hp).2]
  rw [if_neg (by omega)]
  exact ⟨_, rfl⟩

/-- What the sender of an initiation waits for, and what the receiver reads in it. -/
structure Sent (P : Primitives) (ka kb : PrivateKey) (timestamp : Bytes 12) (msg : List UInt8)
    (hs : Handshake) : Prop where
  length : msg.length = MESSAGE_INITIATION_SIZE
  type : ofLeBytes (slice msg 0 4) = MESSAGE_INITIATION_TYPE
  index : BitVec.ofNat 32 (ofLeBytes (slice msg 4 8)) = hs.localIndex
  mac1 : checkMac1With P (P.calculateMac1Key (P.x25519Public kb)) msg = true
  remoteStatic : hs.remoteStatic = P.x25519Public kb
  opens : ∀ b : Handler, b.privateKey = kb → b.publicKey = P.x25519Public kb → b.openInitiation P msg = .ok {
    senderIdx := hs.localIndex
    remoteStatic := P.x25519Public ka
    remoteEphemeral := P.x25519Public hs.localEphemeral
    hash := hs.hash
    chainKey := hs.chainKey
    timestamp := timestamp.val }

theorem ofNat_ofLeBytes (idx : Index) : BitVec.ofNat 32 (ofLeBytes (leBytes 4 idx.toNat)) = idx := by
  have hmod : idx.toNat % 256 ^ 4 = idx.toNat := Nat.mod_eq_of_lt idx.isLt
  rw [ofLeBytes_leBytes, hmod, BitVec.ofNat_toNat, BitVec.setWidth_eq]

/-- A message laid out as an initiation, over the transcript kept of it. -/
theorem sent_of_layout (hP : P.Lawful) {ka kb : PrivateKey} {ts : Bytes 12} {hs : Handshake} {mac2 : Bytes 16}
    {hash hash2 : Bytes 32} {k1 k2 : Bytes 32 × Bytes 32} {encStatic encTimestamp body : List UInt8}
    (hremote : hs.remoteStatic = P.x25519Public kb)
    (hhash : hash = P.mixHash (P.mixHash P.initialHash (P.x25519Public kb).val)
      (P.x25519Public hs.localEphemeral).val)
    (hk1 : k1 = P.kdf2 (P.mixKey P.initialChainKey (P.x25519Public hs.localEphemeral).val).val
      (P.x25519 hs.localEphemeral (P.x25519Public kb)).val)
    (hes : encStatic = P.aeadSeal k1.2 0 (P.x25519Public ka).val hash.val)
    (hhash2 : hash2 = P.mixHash hash encStatic)
    (hk2 : k2 = P.kdf2 k1.1.val (P.x25519 ka (P.x25519Public kb)).val)
    (het : encTimestamp = P.aeadSeal k2.2 0 ts.val hash2.val)
    (hshash : hs.hash = P.mixHash hash2 encTimestamp) (hschain : hs.chainKey = k2.1)
    (hbody : body = leBytes 4 MESSAGE_INITIATION_TYPE ++ leBytes 4 hs.localIndex.toNat ++
      (P.x25519Public hs.localEphemeral).val ++ encStatic ++ encTimestamp) :
    Sent P ka kb ts (body ++ (P.blake2sMac128 (P.calculateMac1Key (P.x25519Public kb)).val body).val ++
      mac2.val) hs := by
  have hesl : encStatic.length = 48 := by simp [hes, Primitives.aeadSeal_length hP]
  have hetl : encTimestamp.length = 28 := by simp [het, Primitives.aeadSeal_length hP]
  have hbl : body.length = 116 := by simp [hbody, hesl, hetl]
  have hmac : checkMac1With P (P.calculateMac1Key (P.x25519Public kb)) (body ++
      (P.blake2sMac128 (P.calculateMac1Key (P.x25519Public kb)).val body).val ++ mac2.val) = true :=
    checkMac1With_append mac2
  generalize P.blake2sMac128 (P.calculateMac1Key (P.x25519Public kb)).val body = mac1 at hmac ⊢
  -- the fields, one after the other
  have htype : slice (body ++ mac1.val ++ mac2.val) 0 4 = leBytes 4 MESSAGE_INITIATION_TYPE := by
    simp [hbody, slice_head]
  have hidx : slice (body ++ mac1.val ++ mac2.val) 4 8 = leBytes 4 hs.localIndex.toNat := by
    simp [hbody, slice_head, slice_skip]
  have heph : slice (body ++ mac1.val ++ mac2.val) 8 40 = (P.x25519Public hs.localEphemeral).val := by
    simp [hbody, slice_head, slice_skip]
  have hstatic : slice (body ++ mac1.val ++ mac2.val) 40 88 = encStatic := by
    simp [hbody, slice_head, slice_skip, hesl]
  have hts : slice (body ++ mac1.val ++ mac2.val) 88 116 = encTimestamp := by
    simp [hbody, slice_head, slice_skip, hesl, hetl]
  refine ⟨?_, ?_, by rw [hidx, ofNat_ofLeBytes], hmac, hremote, ?_⟩
  · simp [hbl, MESSAGE_INITIATION_SIZE]
  · rw [htype, ofLeBytes_leBytes]
    rfl
  · intro b hb hbp
    have hdh1 : P.x25519 kb (P.x25519Public hs.localEphemeral) = P.x25519 hs.localEphemeral (P.x25519Public kb) :=
      hP.dh_comm _ _
    have hdh2 : P.x25519 kb (P.x25519Public ka) = P.x25519 ka (P.x25519Public kb) := hP.dh_comm _ _
    have hes' : P.aeadOpen k1.2 0 encStatic hash.val = .ok (P.x25519Public ka).val :=
      hes ▸ Primitives.aeadOpen_aeadSeal hP _ _ _ _
    have het' : P.aeadOpen k2.2 0 encTimestamp hash2.val = .ok ts.val :=
      het ▸ Primitives.aeadOpen_aeadSeal hP _ _ _ _
    simp only [Handler.openInitiation, except_guard_ok, except_bind_ok, hidx, heph, hstatic, hts, hb, hbp,
      Bytes.ofSlice_val, P.x25519Dh_public hP, Except.ok.injEq, exists_eq_left', hdh1, ← hhash, ← hk1, hes',
      Primitives.orElse, hdh2, ← hk2, ← hhash2, het', ← hshash, ← hschain, htype, Bytes.length_val]
    refine ⟨by decide, not_not.mpr rfl, ?_⟩
    rw [ofNat_ofLeBytes]
    rfl

/-- An initiation of ours, read by the peer it is for. -/
theorem wp_initiateHandshakeAt (hP : P.Lawful) {ka kb : PrivateKey} {at_ : Instant} (hk : Keyed P ka h) :
    wp (Handler.initiateHandshakeAt P e (P.x25519Public kb) at_)
      (fun msg h' => ∃ hs, Sent P ka kb e.timestamp msg hs ∧
      h'.handshakes.lookup hs.localIndex = some hs) (fun _ _ => True) h := by
  simp only [Handler.initiateHandshakeAt, ↓wp_bind, ↓wp_get, ↓wp_ite, ↓wp_fail, ↓wp_ofExcept, ↓wp_pure, ↓wp_set,
    hk.privateKey, P.x25519Dh_public hP, Primitives.aeadSeal_length hP]
  refine ⟨fun _ => trivial, fun hauth => ⟨fun ss hss => ⟨fun es hes => ⟨fun _ => trivial, fun _ =>
    ⟨fun _ => trivial, fun _ => ?_⟩⟩, fun _ _ => trivial⟩, fun _ _ => trivial⟩⟩
  cases hss
  cases hes
  refine wp_mono ?_ (fun _ _ _ => trivial) wp_allocateIndex
  rintro idx h1 ⟨rfl, -⟩
  simp only [Handler.insertHandshake, ↓wp_bind, ↓wp_modify, ↓wp_get, ↓wp_ite, ↓wp_fail, ↓wp_set]
  refine ⟨fun _ => trivial, fun _ => ?_⟩
  generalize hhs : Handshake.mk _ _ _ _ idx _ _ _ _ _ = hs
  refine ⟨hs, ?_, ?_⟩
  · have hk1 : Keyed P ka { h1 with handshakes :=
        (h1.handshakes.retain fun _ old => old.remoteStatic != P.x25519Public kb).insert idx hs } :=
      hk.congr rfl rfl rfl fun _ p hp => ⟨p, hp, rfl, rfl⟩
    obtain ⟨mac2, hmac⟩ := cookieAddMacs_append (e.now 2) hk1 (isSome_of_isAuthorizedPeer hauth)
    rw [hmac]
    subst hhs
    exact sent_of_layout hP rfl rfl rfl (by rw [hk.publicKey]) rfl rfl rfl rfl rfl rfl
  · have hidx : hs.localIndex = idx := by rw [← hhs]
    rw [hidx]
    exact (congrArg (AList.lookup idx) (quiet_cookieAddMacs P).handshakes).trans (AList.lookup_insert _)

theorem wp_initiateHandshake (hP : P.Lawful) {ka : PrivateKey} (kb : PrivateKey) (e : Env) (hk : Keyed P ka h) :
    wp (Handler.initiateHandshake P e (P.x25519Public kb)) (fun msg h' => ∃ hs, Sent P ka kb e.timestamp msg hs ∧
      h'.handshakes.lookup hs.localIndex = some hs) (fun _ _ => True) h :=
  wp_initiateHandshakeAt (e := e.after 1) hP hk

/-! ## The response -/

/-- What the two ends share after an initiation was opened. -/
structure Handler.Initiation.Matches (P : Primitives) (ka : PrivateKey) (i : Handler.Initiation) (hs : Handshake) :
    Prop where
  index : i.senderIdx = hs.localIndex
  remoteStatic : i.remoteStatic = P.x25519Public ka
  remoteEphemeral : i.remoteEphemeral = P.x25519Public hs.localEphemeral
  hash : i.hash = hs.hash
  chainKey : i.chainKey = hs.chainKey

/-- The whole message of a response: MAC1 for the initiator, and no MAC2. -/
def responseMessage (P : Primitives) (key : PublicKey) (body : List UInt8) : List UInt8 :=
  body ++ (P.blake2sMac128 (P.calculateMac1Key key).val body).val ++ List.replicate 16 0

theorem openResponse_layout (hP : P.Lawful) {ka er : PrivateKey} {hs : Handshake} {localIdx : Index} {e' : Env}
    {r : Bytes 32 × Bytes 32 × Bytes 32} {ct body : List UInt8} (hk : Keyed P ka h)
    (hlook : h.handshakes.lookup hs.localIndex = some hs) (hauth : h.isAuthorizedPeer hs.remoteStatic
      (e'.now 0) = true)
    (hr : r = P.mixPsk (P.mixKey (P.mixKey (P.mixKey hs.chainKey (P.x25519Public er).val)
      (P.x25519 er (P.x25519Public hs.localEphemeral)).val) (P.x25519 er (P.x25519Public ka)).val)
      (P.mixHash hs.hash (P.x25519Public er).val) (h.preshared hs.remoteStatic))
    (hct : ct = P.aeadSeal r.2.2 0 [] r.2.1.val)
    (hbody : body = leBytes 4 MESSAGE_RESPONSE_TYPE ++ leBytes 4 localIdx.toNat ++ leBytes 4 hs.localIndex.toNat ++
      (P.x25519Public er).val ++ ct) :
    h.openResponse P e' (responseMessage P (P.x25519Public ka) body) = .ok (hs, r.1) ∧
      ofLeBytes (slice (responseMessage P (P.x25519Public ka) body) 0 4) = MESSAGE_RESPONSE_TYPE ∧
      BitVec.ofNat 32 (ofLeBytes (slice (responseMessage P (P.x25519Public ka) body) 4 8)) = localIdx ∧
      BitVec.ofNat 32 (ofLeBytes (slice (responseMessage P (P.x25519Public ka) body) 8 12)) = hs.localIndex := by
  have hctl : ct.length = 16 := by simp [hct, Primitives.aeadSeal_length hP]
  have hmac : checkMac1With P (P.calculateMac1Key (P.x25519Public ka))
    (responseMessage P (P.x25519Public ka) body) = true :=
    checkMac1With_append (Bytes.zero 16)
  have hlen : (responseMessage P (P.x25519Public ka) body).length = MESSAGE_RESPONSE_SIZE := by
    simp [responseMessage, hbody, hctl, MESSAGE_RESPONSE_SIZE]
  have htype : slice (responseMessage P (P.x25519Public ka) body) 0 4 = leBytes 4 MESSAGE_RESPONSE_TYPE := by
    simp [responseMessage, hbody, slice_head]
  have hsender : slice (responseMessage P (P.x25519Public ka) body) 4 8 = leBytes 4 localIdx.toNat := by
    simp [responseMessage, hbody, slice_head, slice_skip]
  have hreceiver : slice (responseMessage P (P.x25519Public ka) body) 8 12 = leBytes 4 hs.localIndex.toNat := by
    simp [responseMessage, hbody, slice_head, slice_skip]
  have heph : slice (responseMessage P (P.x25519Public ka) body) 12 44 = (P.x25519Public er).val := by
    simp [responseMessage, hbody, slice_head, slice_skip]
  have hempty : slice (responseMessage P (P.x25519Public ka) body) 44 60 = ct := by
    simp [responseMessage, hbody, slice_head, slice_skip, hctl]
  have hdh1 : P.x25519 hs.localEphemeral (P.x25519Public er) = P.x25519 er (P.x25519Public hs.localEphemeral) :=
    hP.dh_comm _ _
  have hdh2 : P.x25519 ka (P.x25519Public er) = P.x25519 er (P.x25519Public ka) := hP.dh_comm _ _
  have hct' : P.aeadOpen r.2.2 0 ct r.2.1.val = .ok [] := hct ▸ Primitives.aeadOpen_aeadSeal hP _ _ _ _
  have hidx : BitVec.ofNat 32 (ofLeBytes (slice (responseMessage P (P.x25519Public ka) body) 8 12)) =
    hs.localIndex := by
    rw [hreceiver, ofNat_ofLeBytes]
  have hlook' : h.handshakes.lookup (BitVec.ofNat 32 (ofLeBytes
      (slice (responseMessage P (P.x25519Public ka) body) 8 12))) = some hs := by
    rw [hidx]
    exact hlook
  refine ⟨?_, by rw [htype]; decide, by rw [hsender, ofNat_ofLeBytes], hidx⟩
  simp only [Handler.openResponse, except_guard_ok, except_bind_ok, htype, hlook', hauth,
    hk.privateKey, hk.publicKey,
    hmac, hlen, heph, hempty, Bytes.ofSlice_val, P.x25519Dh_public hP, Except.ok.injEq,
      exists_eq_left', hdh1, hdh2,
    ← hr, hct', Primitives.orElse]
  exact ⟨not_not.mpr rfl, by decide, by decide, by decide, by decide, rfl⟩

theorem buildResponse_ok (hP : P.Lawful) {ka : PrivateKey} {i : Handler.Initiation} {hs : Handshake}
    (localIdx : Index)
    (psk : PresharedKey) (hm : i.Matches P ka hs) :
    ∃ body chainKey, Handler.buildResponse P e i localIdx psk = .ok (body, chainKey) := by
  simp only [Handler.buildResponse, hm.remoteStatic, hm.remoteEphemeral, except_bind_ok, except_guard_ok,
    P.x25519Dh_public hP, Primitives.aeadSeal_length hP, Except.ok.injEq, exists_eq_left']
  exact ⟨_, _, not_not.mpr rfl, rfl⟩

/-- The answer to an initiation can be built, and the initiator opens it to the same chaining key. -/
theorem openResponse_buildResponse (hP : P.Lawful) {ka : PrivateKey} {i : Handler.Initiation} {hs : Handshake}
    (localIdx : Index) {e' : Env} (hm : i.Matches P ka hs) (hk : Keyed P ka h)
    (hlook : h.handshakes.lookup hs.localIndex = some hs) (hauth : h.isAuthorizedPeer hs.remoteStatic
      (e'.now 0) = true) :
    ∃ body chainKey, Handler.buildResponse P e i localIdx (h.preshared hs.remoteStatic) = .ok (body, chainKey) ∧
      h.openResponse P e' (responseMessage P i.remoteStatic body) = .ok (hs, chainKey) ∧
      ofLeBytes (slice (responseMessage P i.remoteStatic body) 0 4) = MESSAGE_RESPONSE_TYPE ∧
      BitVec.ofNat 32 (ofLeBytes (slice (responseMessage P i.remoteStatic body) 4 8)) = localIdx ∧
      BitVec.ofNat 32 (ofLeBytes (slice (responseMessage P i.remoteStatic body) 8 12)) = hs.localIndex := by
  simp only [Handler.buildResponse, hm.index, hm.remoteStatic, hm.remoteEphemeral, hm.hash,
    hm.chainKey, except_bind_ok,
    except_guard_ok, P.x25519Dh_public hP, Primitives.aeadSeal_length hP, Except.ok.injEq, exists_eq_left']
  exact ⟨_, _, ⟨not_not.mpr rfl, rfl⟩, openResponse_layout hP hk hlook hauth rfl rfl rfl⟩

/-! ## The two calls -/

theorem preshared_eq {key : PublicKey} {p : PeerEntry} (hp : h.peers.lookup key = some p) :
    h.preshared key = if p.hasPsk then p.presharedKey else Bytes.zero 32 := by
  simp [Handler.preshared, hp]

theorem authorized_eq {key : PublicKey} {p : PeerEntry} {now : Instant} (hp : h.peers.lookup key = some p) :
    h.isAuthorizedPeer key now = p.expiresAt.all (now ≤ ·) := by
  simp [Handler.isAuthorizedPeer, Handler.authorized, hp]

/-- What a responder asks of an initiation it has opened. -/
structure Welcome (b : Handler) (e : Env) (key : PublicKey) (timestamp : Bytes 12) : Prop where
  authorized : b.isAuthorizedPeer key (e.now 5) = true ∧ b.isAuthorizedPeer key (e.now 8) = true
  newer : ∀ p, b.peers.lookup key = some p → p.hasTimestamp = true → p.lastTimestamp.val < timestamp.val
  spaced : ∀ p t, b.peers.lookup key = some p → p.lastInitiationConsumed = some t →
    MIN_INITIATION_INTERVAL ≤ e.now 6 - t
  index : ∃ idx ∈ e.draws, idx ≠ 0 ∧ b.inUse idx = false ∧ e.taken idx = false

theorem wp_acceptPeerInitiation {key : PublicKey} {p : PeerEntry} {ts : Bytes 12} {now : Instant}
    (hp : h.peers.lookup key = some p) (hnew : p.hasTimestamp = true → p.lastTimestamp.val < ts.val)
    (hspaced : ∀ t, p.lastInitiationConsumed = some t → MIN_INITIATION_INTERVAL ≤ now - t) :
    wp (Handler.acceptPeerInitiation key ts.val now) (fun _ h' => ∃ p', h' =
      { h with peers := h.peers.insert key p' } ∧
      p'.expiresAt = p.expiresAt ∧ p'.presharedKey = p.presharedKey ∧ p'.hasPsk = p.hasPsk)
        (fun _ _ => False) h := by
  simp only [Handler.acceptPeerInitiation, ↓wp_bind, ↓wp_get, hp, ↓wp_ite, ↓wp_fail, ↓wp_set]
  refine ⟨fun hbad => ?_, fun _ => ⟨fun hbad => ?_, fun _ => ⟨_, rfl, rfl, rfl, rfl⟩⟩⟩
  · simp only [Bool.and_eq_true, decide_eq_true_eq] at hbad
    exact hbad.2 (hnew hbad.1)
  · obtain ⟨t, ht, hlt⟩ := (Option.any_eq_true _ _).mp hbad
    exact absurd (of_decide_eq_true hlt) (not_lt.mpr (hspaced t ht))

theorem wp_allocateIndex_free (hfree : ∃ idx ∈ e.draws, idx ≠ 0 ∧ h.inUse idx = false ∧ e.taken idx = false) :
    wp (Handler.allocateIndex e) (fun idx h' => h' = h ∧ h.inUse idx = false) (fun _ _ => False) h := by
  simp only [Handler.allocateIndex, ↓wp_bind, ↓wp_get]
  split
  · next idx hidx =>
    have hf := List.find?_some hidx
    simp only [Bool.and_eq_true, Bool.not_eq_true'] at hf
    exact ⟨rfl, hf.1.2⟩
  · next hnone =>
    obtain ⟨idx, hmem, h0, hin, htaken⟩ := hfree
    have hno := List.find?_eq_none.mp hnone idx hmem
    exact absurd (by simpa [hin, htaken] using hno) h0

/-- Under load or not, letting an initiation through changes no table. -/
theorem admitInitiation_tables {data : List UInt8} {addr : SocketAddr} {r : Option PacketResult} {h' : Handler}
    (hr : Handler.admitInitiation P e false data addr h = .ok r h') :
    Quiet h h' ∧ h'.peers = h.peers := by
  have hw : wp (Handler.admitInitiation P e false data addr) (fun _ h' => Quiet h h' ∧ h'.peers = h.peers)
      (fun _ _ => True) h := by
    simp only [Handler.admitInitiation, ↓wp_bind, ↓wp_get, ↓wp_set, ↓wp_ite, ↓wp_pure, ↓wp_fail]
    refine ⟨fun _ => ⟨quiet_underLoad, rfl⟩, fun _ => ⟨fun _ =>
      ⟨{ mac1Key := maybeRefresh_mac1Key }, rfl⟩, fun _ =>
      ⟨fun _ => ⟨quiet_underLoad, rfl⟩, fun _ => ⟨fun _ => trivial, fun _ => ⟨{}, rfl⟩⟩⟩⟩⟩
  rwa [wp_of_ok hr] at hw

theorem wp_install_ok {key : PublicKey} {kp : Keypair} {place : Session → Keypair → Session × List Keypair}
    (hauth : h.isAuthorizedPeer key (e.now 0) = true) (hfree : h.keypairs.lookup kp.localIndex = none) :
    wp (Handler.install e key kp place) (fun _ h' => ∃ x gone, h' = { h with
      sessions := h.sessions.insert key (place x kp).1
      keypairs := Handler.unindex (h.keypairs.insert kp.localIndex kp) gone }) (fun _ _ => False) h := by
  simp only [Handler.install, ↓wp_bind, ↓wp_get, ↓wp_ite, ↓wp_fail, ↓wp_set]
  refine ⟨fun hbad => ?_, fun _ => ⟨fun hbad => ?_, fun _ => ⟨_, _, rfl⟩⟩⟩
  · rw [hauth] at hbad
    cases hbad
  · rw [hfree] at hbad
    cases hbad

theorem wp_processHandshakeInitiation (hP : P.Lawful) {ka kb : PrivateKey} {ts : Bytes 12} {msg : List UInt8}
    {hs : Handshake} {addr : SocketAddr} {b b₁ : Handler} (hsent : Sent P ka kb ts msg hs) (hk : Keyed P kb b)
    (hadm : Handler.admitInitiation P e false msg addr b = .ok none b₁) (hw : Welcome b e (P.x25519Public ka) ts) :
    wp (Handler.processHandshakeInitiation P e false msg addr) (fun r b' => ∃ i id localIdx body chainKey,
      i.Matches P ka hs ∧ i.remoteStatic = P.x25519Public ka ∧
      Handler.buildResponse P e i localIdx (b.preshared (P.x25519Public ka)) = .ok (body, chainKey) ∧
      r.response = responseMessage P (P.x25519Public ka) body ∧
      (b'.sessions.lookup (P.x25519Public ka)).bind (·.keypairNext) =
        some (Handler.initiationKeypair P e id i localIdx chainKey)) (fun _ _ => False) b := by
  obtain ⟨hq, hpeers⟩ := admitInitiation_tables hadm
  have hk₁ := hk.quiet hq
  simp only [Handler.processHandshakeInitiation, ↓wp_bind, ↓wp_get, ↓wp_ite, ↓wp_fail]
  refine ⟨fun hl => hl hsent.length, fun _ => ⟨fun hm => ?_, fun _ => ?_⟩⟩
  · rw [CookieChecker.checkMac1, hk.mac1Key, hk.publicKey, hsent.mac1] at hm
    cases hm
  rw [wp_of_ok hadm]
  simp only [↓wp_bind, ↓wp_get, ↓wp_ofExcept, ↓wp_ite, ↓wp_fail, hsent.opens b₁ hk₁.privateKey hk₁.publicKey]
  refine ⟨fun i hi => ?_, fun _ he => by cases he⟩
  have hmatch : i.Matches P ka hs := by
    cases hi
    exact ⟨rfl, rfl, rfl, rfl, rfl⟩
  cases hi
  have hknown : ¬ (!b.isAuthorizedPeer (P.x25519Public ka) (e.now 5)) = true := by simp [hw.authorized.1]
  obtain ⟨p, hp⟩ := Option.isSome_iff_exists.mp (isSome_of_isAuthorizedPeer hknown)
  have hp₁ : b₁.peers.lookup (P.x25519Public ka) = some p := by rw [hpeers, hp]
  refine ⟨fun hbad => ?_, fun _ => ?_⟩
  · have hauth := hw.authorized.1
    rw [authorized_eq hp] at hauth
    rw [authorized_eq hp₁, hauth] at hbad
    cases hbad
  refine wp_mono ?_ (fun _ _ => False.elim) (wp_acceptPeerInitiation hp₁ (hw.newer p hp) (hw.spaced p · hp))
  rintro _ _ ⟨p', rfl, hexp, hpsk, hhas⟩
  have hp' : (b₁.peers.insert (P.x25519Public ka) p').lookup (P.x25519Public ka) = some p' := AList.lookup_insert _
  refine wp_mono ?_ (fun _ _ => False.elim) (wp_allocateIndex_free ?_)
  swap
  · simpa [Handler.inUse, hq.handshakes, hq.keypairs] using hw.index
  rintro localIdx h3 ⟨rfl, hfree⟩
  have hpre : Handler.preshared { b₁ with peers := b₁.peers.insert (P.x25519Public ka) p' } (P.x25519Public ka) =
      b.preshared (P.x25519Public ka) := by
    rw [preshared_eq hp', preshared_eq hp, hpsk, hhas]
  simp only [↓wp_modify, ↓wp_set, ↓wp_pure, hpre]
  refine ⟨fun r hr => ?_, fun err he => ?_⟩
  · obtain ⟨body, chainKey⟩ := r
    refine wp_mono ?_ (fun _ _ => False.elim) (wp_install_ok ?_ ?_)
    · rintro _ _ ⟨x, gone, rfl⟩
      refine ⟨_, b₁.nextId, localIdx, body, chainKey, hmatch, rfl, hr, rfl, ?_⟩
      exact Table.bind_lookup_insert
    · have hauth := hw.authorized.2
      rw [authorized_eq hp] at hauth
      exact (authorized_eq hp').trans (hexp ▸ hauth)
    · simp only [Handler.inUse, Bool.or_eq_false_iff] at hfree
      have hnone : b₁.keypairs.lookup localIdx = none := by simpa using hfree.2
      exact hnone
  · obtain ⟨body, chainKey, hok⟩ := buildResponse_ok (e := e) hP localIdx (b.preshared (P.x25519Public ka)) hmatch
    rw [hok] at he
    cases he

/-- A response opened as ours is taken: its keypair is current, and confirmed by a keepalive. -/
theorem wp_processHandshakeResponse {a : Handler} {hs : Handshake} {chainKey : Bytes 32} {msg : List UInt8}
    (hopen : a.openResponse P e msg = .ok (hs, chainKey)) (hinstall : a.isAuthorizedPeer hs.remoteStatic
      (e.now 3) = true)
    (hsend : a.isAuthorizedPeer hs.remoteStatic (e.now 7) = true) (hfree : a.keypairs.lookup hs.localIndex = none)
    (hage : e.now 9 - e.now 2 ≤ REJECT_AFTER_TIME) (hfresh : (a.cells a.nextId).sendCounter = 0) :
    wp (Handler.processHandshakeResponse P e msg) (fun _ a' => ∃ id,
      (a'.sessions.lookup hs.remoteStatic).bind (·.keypairCurrent) = some
        (Handler.responseKeypair P e id hs chainKey (BitVec.ofNat 32 (ofLeBytes (slice msg 4 8)))))
      (fun _ _ => False) a := by
  have hlook := openResponse_lookup hopen
  simp only [Handler.processHandshakeResponse, ↓wp_bind, ↓wp_get, ↓wp_ite, ↓wp_fail, ↓wp_ofExcept, ↓wp_modify,
    ↓wp_set, ↓wp_pure, Handler.completeHandshake, hopen, Except.ok.injEq]
  refine ⟨?_, fun _ he => by cases he⟩
  rintro _ rfl
  refine ⟨fun hbad => ?_, fun _ => ?_⟩
  · rw [hlook] at hbad
    cases hbad
  have htimers : ∀ now, Handler.authorized ((a.peers.modify hs.remoteStatic fun p =>
      { p with timers := p.timers.handshakeComplete.packetReceived (e.now 1) false }).lookup hs.remoteStatic) now =
      a.isAuthorizedPeer hs.remoteStatic now := fun _ => authorized_modify fun _ => rfl
  refine wp_mono ?_ (fun _ _ => False.elim) (wp_install_ok ((htimers _).trans hinstall) hfree)
  rintro _ _ ⟨x, gone, rfl⟩
  refine wp_mono ?_ (fun _ _ => False.elim) (@Ready.encrypt _ (Handler.responseKeypair P e a.nextId hs chainKey
    (BitVec.ofNat 32 (ofLeBytes (slice msg 4 8)))) hs.remoteStatic (e.after 7) 0 ?_ P [])
  · rintro r a' ⟨hr, -, hok⟩
    obtain ⟨hok, -⟩ := hok (by decide)
    cases r with
    | error err => cases hok
    | ok packet => exact ⟨a.nextId, hr.current⟩
  · refine ⟨?_, ?_, hage, hfresh⟩
    · exact isAuthorizedPeer_touchPeerHandshake.trans ((htimers _).trans hsend)
    · refine Table.bind_lookup_insert.trans ?_
      unfold Handler.placeInitiator
      split <;> rfl

/-! ## Whole runs -/

/-- What holds of a handler with the private key `k` between any two moves. -/
structure Steady (P : Primitives) (k : PrivateKey) (s : Running) : Prop where
  sound : Sound s
  keyed : Keyed P k s.handler
  /-- no counter is taken under an identity not given out yet -/
  fresh : ∀ id, s.handler.nextId ≤ id → (s.handler.cells id).sendCounter = 0

theorem Move.fresh (hm : Move P s s') (hs : Sound s)
    (hf : ∀ id, s.handler.nextId ≤ id → (s.handler.cells id).sendCounter = 0) (id : ℕ)
    (hid : s'.handler.nextId ≤ id) : (s'.handler.cells id).sendCounter = 0 := by
  have hslide : ∀ kp counter, ((s.handler.slide kp counter).cells id).sendCounter =
    (s.handler.cells id).sendCounter := by
    intro kp counter
    by_cases he : id = kp.id
    · simp [he, Handler.slide, Handler.setCell]
    · simp [he, Handler.slide, Handler.setCell]
  cases hm with
  | quiet hq =>
    rw [Running.on, hq.nextId] at hid
    rw [Running.on, hq.cells]
    exact hf id hid
  | forget gone =>
    obtain ⟨peers, tombstones, he⟩ := takePeers_eq s.handler gone
    rw [Running.on, he] at hid ⊢
    exact hf id hid
  | mint => exact hf id (Nat.le_of_succ_le hid)
  | install => exact hf id (Nat.le_of_succ_le hid)
  | @promote _ kp =>
    rcases receivedWithKeypair_cases s.handler kp with he | ⟨x, next, -, -, -, hq⟩
    · rw [Running.on, he] at hid ⊢
      exact hf id hid
    · rw [Running.on, hq.nextId] at hid
      rw [Running.on, hq.cells]
      exact hf id hid
  | @draw key x kp hx hcur =>
    have hlt := hs.slots.id_lt _ kp (hs.consistent.slot key x kp hx (mem_slots.mpr (.inl hcur))).2
    have hne : id ≠ kp.id := (hlt.trans_le hid).ne'
    simpa [Running.on, Handler.draw, Handler.note, Handler.setCell, hne] using hf id hid
  | @opened idx kp counter => exact (hslide kp counter).trans (hf id hid)
  | @refused idx kp counter => exact (hslide kp counter).trans (hf id hid)
  | _ => exact hf id hid

theorem Move.steady (hm : Move P s s') (hs : Steady P k s) : Steady P k s' :=
  ⟨hm.sound hs.sound, hm.keyed hs.keyed, hm.fresh hs.sound hs.fresh⟩

theorem steady_new (e : Env) (privateKey : PrivateKey) (threshold limit : Option ℕ) (t : Instant) :
    Steady P (Handler.new P e privateKey threshold limit).privateKey
      ⟨Handler.new P e privateKey threshold limit, t⟩ where
  sound := sound_new e privateKey threshold limit t
  keyed := ⟨rfl, rfl, rfl, by simp [Handler.new]⟩
  fresh _ _ := rfl

theorem Steady.run {calls : List Call} (hs : Steady P k s) (h : Runs.run (Running.step P) s calls = some s') :
    Steady P k s' :=
  run_moves (fun _ _ => Move.steady) h hs.sound.consistent.own hs

/-- The keypairs of the two ends of one session: `mine` on the side of the initiator `a`. -/
structure Mirrored (a b : PublicKey) (mine theirs : Keypair) : Prop where
  sends : mine.sendKey = theirs.receiveKey
  receives : theirs.sendKey = mine.receiveKey
  remoteIndex : mine.remoteIndex = theirs.localIndex
  localIndex : theirs.remoteIndex = mine.localIndex
  initiator : mine.isInitiator = true ∧ theirs.isInitiator = false
  peerKeys : mine.peerKey = b ∧ theirs.peerKey = a

theorem processPacket_initiation {data : List UInt8} {addr : SocketAddr}
    (hl : data.length = MESSAGE_INITIATION_SIZE)
    (ht : ofLeBytes (slice data 0 4) = MESSAGE_INITIATION_TYPE) :
    Handler.processPacket P e data addr = Handler.processHandshakeInitiation P e false data addr := by
  have hlt : ¬ data.length < 4 := by rw [hl]; decide
  simp only [Handler.processPacket, Handler.processPacketAs, if_neg hlt, ht, if_true]

theorem processPacket_response {data : List UInt8} {addr : SocketAddr} (hl : 4 ≤ data.length)
    (ht : ofLeBytes (slice data 0 4) = MESSAGE_RESPONSE_TYPE) :
    Handler.processPacket P e data addr = Handler.processHandshakeResponse P e data := by
  have hne : ¬ MESSAGE_RESPONSE_TYPE = MESSAGE_INITIATION_TYPE := by decide
  simp only [Handler.processPacket, Handler.processPacketAs, if_neg (not_lt.mpr hl), ht, if_true, if_neg hne]

/-- An initiation that is not turned away is answered, the answer is taken while the initiation is
pending, and the two ends hold each other's keys. -/
theorem handshake_agrees (P : Primitives) (hP : P.Lawful) (eA eB : Env) (kA kB : PrivateKey)
    (thresholdA limitA thresholdB limitB : Option ℕ) (callsA callsB : List Call) (a b : Running)
    (ha : Runs.run (Running.step P) ⟨Handler.new P eA kA thresholdA limitA, eA.now 0⟩ callsA = some a)
    (hb : Runs.run (Running.step P) ⟨Handler.new P eB kB thresholdB limitB, eB.now 0⟩ callsB = some b)
    (clock : Clock) (rand : Env) (msg : List UInt8) (a₁ : Handler) (later : List Call) (a₂ : Running)
    (hinit : Handler.initiateHandshake P { rand with now := clock.at_ } b.handler.publicKey a.handler = .ok msg a₁)
    (hlater : Runs.run (Running.step P) a (⟨clock, rand, .initiateHandshake b.handler.publicKey⟩ :: later) =
      some a₂)
    (hpending : a₂.handler.handshakes.lookup (BitVec.ofNat 32 (ofLeBytes (slice msg 4 8))) =
      a₁.handshakes.lookup (BitVec.ofNat 32 (ofLeBytes (slice msg 4 8))))
    (e₂ : Env) (addr : SocketAddr) (b₁ : Handler)
    (hadm : Handler.admitInitiation P e₂ false msg addr b.handler = .ok none b₁)
    (hwelcome : Welcome b.handler e₂ a.handler.publicKey rand.timestamp) (e₃ : Env) (addr' : SocketAddr)
    (hknown : ∀ i ∈ [0, 3, 7], a₂.handler.isAuthorizedPeer b.handler.publicKey (e₃.now i) = true)
    (hprompt : e₃.now 9 - e₃.now 2 ≤ REJECT_AFTER_TIME)
    (hpsk : a₂.handler.preshared b.handler.publicKey = b.handler.preshared a.handler.publicKey) :
    ∃ r₂ b₂ r₃ a₃ mine theirs, Handler.processPacket P e₂ msg addr b.handler = .ok r₂ b₂ ∧
      Handler.processPacket P e₃ r₂.response addr' a₂.handler = .ok r₃ a₃ ∧
      (a₃.sessions.lookup b.handler.publicKey).bind (·.keypairCurrent) = some mine ∧
      (b₂.sessions.lookup a.handler.publicKey).bind (·.keypairNext) = some theirs ∧
      Mirrored a.handler.publicKey b.handler.publicKey mine theirs := by
  have hsa := (steady_new eA kA thresholdA limitA (eA.now 0)).run ha
  have hsb := (steady_new eB kB thresholdB limitB (eB.now 0)).run hb
  have hsa₂ := hsa.run hlater
  generalize (Handler.new P eA kA thresholdA limitA).privateKey = ka at hsa hsa₂
  generalize (Handler.new P eB kB thresholdB limitB).privateKey = kb at hsb
  rw [hsb.keyed.publicKey] at hinit hknown hpsk ⊢
  rw [hsa.keyed.publicKey] at hwelcome hpsk ⊢
  -- the initiation, and what its sender waits for
  have hsent := wp_initiateHandshake hP kb { rand with now := clock.at_ } hsa.keyed
  rw [wp_of_ok hinit] at hsent
  obtain ⟨hs, hsent, hlook₁⟩ := hsent
  have hlook : a₂.handler.handshakes.lookup hs.localIndex = some hs := by
    rw [hsent.index] at hpending
    exact hpending.trans hlook₁
  -- the responder
  obtain ⟨r₂, b₂, hr₂, i, id₂, localIdx, body, chainKey, hm, hi, hbuild, hresp, htheirs⟩ :=
    exists_ok_of_wp (wp_processHandshakeInitiation hP hsent hsb.keyed hadm hwelcome)
  -- the initiator
  have hauth : ∀ j ∈ [0, 3, 7], a₂.handler.isAuthorizedPeer hs.remoteStatic (e₃.now j) = true :=
    hsent.remoteStatic.symm ▸ hknown
  obtain ⟨body', chainKey', hbuild', hopen, htype, hsender, -⟩ := openResponse_buildResponse (e := e₂)
    hP localIdx hm hsa₂.keyed hlook (hauth 0 (by simp))
  rw [hsent.remoteStatic, hpsk, hbuild] at hbuild'
  cases hbuild'
  have hfree := hsa₂.sound.consistent.apart _ hs hlook
  obtain ⟨r₃, a₃, hr₃, id₃, hmine⟩ := exists_ok_of_wp (wp_processHandshakeResponse hopen (hauth 3 (by simp))
    (hauth 7 (by simp)) hfree hprompt (hsa₂.fresh _ le_rfl))
  rw [hsender, hsent.remoteStatic] at hmine
  rw [hi] at hr₃ htype
  have hlen : 4 ≤ (responseMessage P (P.x25519Public ka) body).length := by
    simp [responseMessage]
  refine ⟨r₂, b₂, r₃, a₃, _, _, ?_, ?_, hmine, htheirs, ?_⟩
  · rw [processPacket_initiation hsent.length hsent.type]
    exact hr₂
  · rw [hresp, processPacket_response hlen htype]
    exact hr₃
  · exact ⟨rfl, rfl, rfl, hm.index, ⟨rfl, rfl⟩, hsent.remoteStatic, hi⟩

theorem step_initiateHandshake {c : Clock} {rand : Env} {key : PublicKey} {msg : List UInt8} {t : Instant}
    (ht : t ≤ c.at_ 0) (hr : Handler.initiateHandshake P { rand with now := c.at_ } key h = .ok msg h') :
    Running.step P ⟨h, t⟩ ⟨c, rand, .initiateHandshake key⟩ = some ⟨h', c.stop⟩ := by
  have hperform : (Op.initiateHandshake key).perform P { rand with now := c.at_ } h = .ok () h' := by
    simp only [Op.perform, discard, Functor.discard, Functor.mapConst, Function.comp, EStateM.map, hr]
  simp only [Running.step, if_pos ht, Call.env, hperform]

/-- Two identities that know each other and nothing else. -/
theorem handshake_agrees_plain : ∃ msg a₁ r₂ b₂ r₃ a₃ mine theirs,
    Handler.initiateHandshake .plain { now := fun _ => 0, draws := [7] } (publicOf 16)
      ((Running.start 8).handler.addPeer .plain (publicOf 16)) = .ok msg a₁ ∧
    Handler.processPacket .plain { now := fun _ => 1, draws := [9] } msg ⟨.v4 (Bytes.zero 4), 0⟩
      ((Running.start 16).handler.addPeer .plain (publicOf 8)) = .ok r₂ b₂ ∧
    Handler.processPacket .plain { now := fun _ => 2 } r₂.response ⟨.v4 (Bytes.zero 4), 0⟩ a₁ = .ok r₃ a₃ ∧
    (a₃.sessions.lookup (publicOf 16)).bind (·.keypairCurrent) = some mine ∧
    (b₂.sessions.lookup (publicOf 8)).bind (·.keypairNext) = some theirs ∧
    Mirrored (publicOf 8) (publicOf 16) mine theirs := by
  have hrun : returns (fun _ h => h.isAuthorizedPeer (publicOf 16) 2 && decide (h.preshared (publicOf 16) = Bytes.zero 32))
      (Handler.initiateHandshake .plain { now := fun _ => 0, draws := [7] } (publicOf 16)
        ((Running.start 8).handler.addPeer .plain (publicOf 16))) = true := by
    decide +kernel
  obtain ⟨msg, a₁, hinit, hrun⟩ := returns_eq_true.mp hrun
  simp only [Bool.and_eq_true, decide_eq_true_eq] at hrun
  have hwelcome : Welcome ((Running.start 16).handler.addPeer .plain (publicOf 8))
    { now := fun _ => 1, draws := [9] }
      (publicOf 8) (Bytes.zero 12) := by
    have hentry : (Running.start 16).handler.newEntry .plain (publicOf 8) (Bytes.zero 32) false =
        PeerEntry.new .plain (publicOf 8) (Bytes.zero 32) false := rfl
    refine ⟨by decide +kernel, ?_, ?_, 9, by simp, by decide +kernel⟩
    · rintro p hp
      cases hp
      simp [hentry, PeerEntry.new]
    · rintro p t hp
      cases hp
      simp [hentry, PeerEntry.new]
  obtain ⟨r₂, b₂, r₃, a₃, mine, theirs, h⟩ := handshake_agrees .plain Primitives.plain_lawful { now := fun _ => 0 }
    { now := fun _ => 0 } (keyOf 8) (keyOf 16) none none none none [.still 0 0 (.addPeer (publicOf 16))]
    [.still 0 0 (.addPeer (publicOf 8))] ⟨(Running.start 8).handler.addPeer .plain (publicOf 16), 0⟩
    ⟨(Running.start 16).handler.addPeer .plain (publicOf 8), 0⟩ rfl rfl (.still 0)
    { now := fun _ => 0, draws := [7] } msg a₁ [] ⟨a₁, 0⟩ hinit
    (Runs.run_cons.mpr ⟨_, step_initiateHandshake (c := .still 0) le_rfl hinit, rfl⟩) rfl
    { now := fun _ => 1, draws := [9] } _ _ rfl hwelcome { now := fun _ => 2 } ⟨.v4 (Bytes.zero 4), 0⟩
    (fun _ _ => hrun.1) (by decide) hrun.2
  exact ⟨msg, a₁, r₂, b₂, r₃, a₃, mine, theirs, hinit, h⟩

/-- An initiation whose timestamp is no later than one the responder has accepted is turned away. -/
theorem initiation_refused_answered : ∃ b msg, Runs.run (Running.step .plain) (Running.start 16)
    answered = some b ∧
    (∃ a₁, Handler.initiateHandshake .plain { now := fun _ => 0, draws := [7] } (publicOf 16)
      ((Running.start 8).handler.addPeer .plain (publicOf 16)) = .ok msg a₁) ∧
    ∃ b', Handler.processPacket .plain { now := fun _ => 1000000000, draws := [11] } msg
      ⟨.v4 (Bytes.zero 4), 0⟩ b.handler =
      .error (.error .other "replayed handshake timestamp") b' := by
  have hrun : (Runs.run (Running.step .plain) (Running.start 16) answered).any (fun b =>
      returns (fun msg _ => decide (failure (Handler.processPacket .plain
          { now := fun _ => 1000000000, draws := [11] } msg ⟨.v4 (Bytes.zero 4), 0⟩ b.handler) =
            some (.error .other "replayed handshake timestamp")))
        (Handler.initiateHandshake .plain { now := fun _ => 0, draws := [7] } (publicOf 16)
          ((Running.start 8).handler.addPeer .plain (publicOf 16)))) = true := by
    decide +kernel
  obtain ⟨b, hb, hres⟩ := (Option.any_eq_true _ _).mp hrun
  obtain ⟨msg, a₁, hinit, hres⟩ := returns_eq_true.mp hres
  obtain ⟨b', hproc⟩ := failure_eq_some.mp (of_decide_eq_true hres)
  exact ⟨b, msg, hb, ⟨a₁, hinit⟩, b', hproc⟩

end

end PktKit.Wg
