import PktKit.Wg.Transport

/-! # The handshake

The two messages of Noise IKpsk2: `initiateHandshake` builds the first, `processHandshakeInitiation`
answers it, `processHandshakeResponse` takes the answer. Each keeps its own copy of the transcript:
a hash of all that was said, and a chaining key.
-/

namespace PktKit.Wg
open Foundations

def MESSAGE_INITIATION_SIZE : ℕ := 148
def MESSAGE_RESPONSE_SIZE : ℕ := 92
def MESSAGE_COOKIE_REPLY_SIZE : ℕ := 64

def sourceBytes (addr : SocketAddr) : List UInt8 :=
  (match addr.ip with
    | .v4 a => a.val
    | .v6 a => a.val) ++ [UInt8.ofNat (addr.port.toNat / 256), UInt8.ofNat addr.port.toNat]

namespace Handler

variable (P : Primitives)

def cookieAddMacs (h : Handler) (key : PublicKey) (pkt : List UInt8) (now : Instant) : Handler × List UInt8 :=
  match h.peers.lookup key with
  | some p =>
    let (g, pkt) := p.cookieGen.addMacs P pkt now
    ({ h with peers := h.peers.insert key { p with cookieGen := g } }, pkt)
  | none =>
    if 16 * 2 ≤ pkt.length then
      let smac1 := pkt.length - 16 - 16
      let mac1 := P.blake2sMac128 (P.calculateMac1Key key).val (pkt.take smac1)
      (h, pkt.take smac1 ++ mac1.val ++ pkt.drop (pkt.length - 16))
    else (h, pkt)

/-! ## The initiator -/

/-- Build an initiation, recorded as sent at `at_`. -/
def initiateHandshakeAt (e : Env) (key : PublicKey) (at_ : Instant) : Action (List UInt8) := do
  let h ← get
  if !h.isAuthorizedPeer key (e.now 0) then fail .permissionDenied "peer not authorized"
  let staticStatic ← ofExcept (P.x25519Dh h.privateKey key)
  let hash := P.mixHash P.initialHash key.val
  let localEphemeral := Primitives.clamp e.ephemeral
  let ephPub := P.x25519Public localEphemeral
  let hash := P.mixHash hash ephPub.val
  let chainKey := P.mixKey P.initialChainKey ephPub.val
  -- es
  let tempSs ← ofExcept (P.x25519Dh localEphemeral key)
  let (chainKey, k) := P.kdf2 chainKey.val tempSs.val
  let encStatic := P.aeadSeal k 0 h.publicKey.val hash.val
  if encStatic.length ≠ 32 + 16 then fail .other "unexpected static field size"
  let hash := P.mixHash hash encStatic
  -- ss
  let (chainKey, k) := P.kdf2 chainKey.val staticStatic.val
  let encTimestamp := P.aeadSeal k 0 e.timestamp.val hash.val
  if encTimestamp.length ≠ 12 + 16 then fail .other "unexpected timestamp field size"
  let hash := P.mixHash hash encTimestamp
  let senderIdx ← allocateIndex e
  let pkt := leBytes 4 MESSAGE_INITIATION_TYPE ++ leBytes 4 senderIdx.toNat ++ ephPub.val ++ encStatic ++
    encTimestamp ++ List.replicate 32 0
  insertHandshake senderIdx {
    state := .initiationCreated
    hash := hash
    chainKey := chainKey
    localEphemeral := localEphemeral
    localIndex := senderIdx
    remoteIndex := 0
    remoteStatic := key
    remoteEphemeral := Bytes.zero 32
    precomputedStaticStatic := staticStatic
    created := e.now 1 }
  let h ← get
  let (h, pkt) := h.cookieAddMacs P key pkt (e.now 2)
  set (h.withTimers key (·.initiationSent at_ e.random))
  return pkt

def initiateHandshake (e : Env) (key : PublicKey) : Action (List UInt8) :=
  initiateHandshakeAt P (e.after 1) key (e.now 0)

/-- The keypair is new: nothing is known of it but that the response which created it authenticated. -/
def mint (h : Handler) (kp : Keypair) : Handler :=
  { h with nextId := h.nextId + 1, log := h.log ++ if kp.isInitiator then [.completed kp] else [] }

/-- Open a response: the handshake it completes, and the chaining key it ends with. -/
def openResponse (h : Handler) (e : Env) (data : List UInt8) : Except Failure (Handshake × Bytes 32) := do
  if data.length ≠ MESSAGE_RESPONSE_SIZE then throw (.error .invalidData "response too short")
  if ofLeBytes (slice data 0 4) ≠ MESSAGE_RESPONSE_TYPE then
    throw (.error .invalidData "wrong message type for response")
  let receiverIdx : Index := BitVec.ofNat 32 (ofLeBytes (slice data 8 12))
  match h.handshakes.lookup receiverIdx with
  | none => throw (.error .notFound "no pending handshake")
  | some hs =>
    if !h.isAuthorizedPeer hs.remoteStatic (e.now 0) then throw (.error .permissionDenied "peer not authorized")
    if !checkMac1With P (P.calculateMac1Key h.publicKey) data then
      throw (.error .invalidData "invalid MAC1 on response")
    let serverEphPub : PublicKey := Bytes.ofSlice 32 (slice data 12 44)
    let hash := P.mixHash hs.hash serverEphPub.val
    let chainKey := P.mixKey hs.chainKey serverEphPub.val
    -- ee
    let temp ← P.x25519Dh hs.localEphemeral serverEphPub
    let chainKey := P.mixKey chainKey temp.val
    -- se
    let temp ← P.x25519Dh h.privateKey serverEphPub
    let chainKey := P.mixKey chainKey temp.val
    let (chainKey, hash, k) := P.mixPsk chainKey hash (h.preshared hs.remoteStatic)
    let opened ← Primitives.orElse (P.aeadOpen k 0 (slice data 44 60) hash.val) .invalidData "decrypt empty"
    if !opened.isEmpty then throw (.error .invalidData "non-empty empty field")
    return (hs, chainKey)

def responseKeypair (e : Env) (id : ℕ) (hs : Handshake) (chainKey : Bytes 32) (senderIdx : Index) : Keypair where
  id := id
  sendKey := (P.kdf2 chainKey.val []).1
  receiveKey := (P.kdf2 chainKey.val []).2
  created := e.now 2
  localIndex := hs.localIndex
  remoteIndex := senderIdx
  peerKey := hs.remoteStatic
  isInitiator := true

/-- Take the response to an initiation of ours; the answer is a keepalive, which confirms it. -/
def processHandshakeResponse (e : Env) (data : List UInt8) : Action PacketResult := do
  let (hs, chainKey) ← ofExcept ((← get).openResponse P e data)
  let senderIdx : Index := BitVec.ofNat 32 (ofLeBytes (slice data 4 8))
  let receiverIdx : Index := BitVec.ofNat 32 (ofLeBytes (slice data 8 12))
  -- authenticated
  if !(← completeHandshake receiverIdx) then fail .notFound "no pending handshake"
  modify fun h => h.withTimers hs.remoteStatic fun t => t.handshakeComplete.packetReceived (e.now 1) false
  let h ← get
  let kp := responseKeypair P e h.nextId hs chainKey senderIdx
  set (h.mint kp)
  installInitiatorKeypair (e.after 3) hs.remoteStatic kp
  modify fun h => h.touchPeerHandshake hs.remoteStatic (e.now 6)
  match ← encryptDataPacket P (e.after 7) [] hs.remoteStatic with
  | .ok (keepalive, _) => return { ty := .handshakeResponse, response := keepalive, peerKey := hs.remoteStatic }
  | .error err => fail .other err.text

/-! ## The responder -/

/-- Accept an initiation by its timestamp: strictly later than the last one, and not too soon after. -/
def acceptPeerInitiation (key : PublicKey) (ts : List UInt8) (now : Instant) : Action Unit := do
  let h ← get
  match h.peers.lookup key with
  | none => fail .permissionDenied "unauthorized peer"
  | some p =>
    if p.hasTimestamp && decide (ts ≤ p.lastTimestamp.val) then fail .other "replayed handshake timestamp"
    if p.lastInitiationConsumed.any fun t => decide (now - t < MIN_INITIATION_INTERVAL) then
      fail .other "handshake initiations too frequent"
    let n := min ts.length 12
    let lastTimestamp := Bytes.ofSlice 12 (ts.take n ++ p.lastTimestamp.val.drop n)
    let consumed := if p.lastInitiationConsumed.all (decide <| · < now) then some now else p.lastInitiationConsumed
    set { h with peers := h.peers.insert key { p with
      lastTimestamp := lastTimestamp
      hasTimestamp := true
      lastInitiationConsumed := consumed
      lastHandshake := some now } }

/-- Under load a sender must show a cookie, and keep to its share. What is returned is a cookie reply
to send instead. -/
def admitInitiation (e : Env) (replay : Bool) (data : List UInt8) (addr : SocketAddr) :
    Action (Option PacketResult) := do
  let h ← get
  let (h, underLoad) := h.underLoad (!replay) (e.now 0)
  set h
  if !underLoad then return none
  let src := sourceBytes addr
  let mac2Ok := !(slice data 132 148).all (· == 0) && h.cookieChecker.checkMac2 P data src (e.now 1)
  if !mac2Ok then
    let checker := h.cookieChecker.maybeRefresh e.secret (e.now 2) (e.now 3)
    set { h with cookieChecker := checker }
    let sender := ofLeBytes (slice data 4 8)
    return some {
      ty := .cookieReply
      response := checker.generateReply P src sender (slice data 116 132) e.nonce
      peerKey := Bytes.zero 32 }
  if replay then return none
  let (limiter, ok) := h.ratelimiter.allow addr.ip (e.now 4)
  set { h with ratelimiter := limiter }
  if !ok then fail .other "handshake rate limited"
  return none

/-- What an initiation says, once opened: who sent it, and the transcript up to it. -/
structure Initiation where
  senderIdx : Index
  remoteStatic : PublicKey
  remoteEphemeral : PublicKey
  hash : Bytes 32
  chainKey : Bytes 32
  timestamp : List UInt8

def openInitiation (h : Handler) (data : List UInt8) : Except Failure Initiation := do
  if ofLeBytes (slice data 0 4) ≠ MESSAGE_INITIATION_TYPE then throw (.error .invalidData "wrong message type")
  let hash := P.mixHash P.initialHash h.publicKey.val
  let remoteEph : PublicKey := Bytes.ofSlice 32 (slice data 8 40)
  let hash := P.mixHash hash remoteEph.val
  let chainKey := P.mixKey P.initialChainKey remoteEph.val
  -- es
  let tempSs ← P.x25519Dh h.privateKey remoteEph
  let (chainKey, k) := P.kdf2 chainKey.val tempSs.val
  let encStatic := slice data 40 88
  let clientStatic ← Primitives.orElse (P.aeadOpen k 0 encStatic hash.val) .invalidData "decrypt static"
  if clientStatic.length ≠ 32 then throw (.error .invalidData "client static wrong length")
  let remoteStatic : PublicKey := Bytes.ofSlice 32 clientStatic
  let hash := P.mixHash hash encStatic
  -- ss
  let tempSs ← P.x25519Dh h.privateKey remoteStatic
  let (chainKey, k) := P.kdf2 chainKey.val tempSs.val
  let encTimestamp := slice data 88 116
  let timestamp ← Primitives.orElse (P.aeadOpen k 0 encTimestamp hash.val) .invalidData "decrypt timestamp"
  return {
    senderIdx := BitVec.ofNat 32 (ofLeBytes (slice data 4 8))
    remoteStatic := remoteStatic
    remoteEphemeral := remoteEph
    hash := P.mixHash hash encTimestamp
    chainKey := chainKey
    timestamp := timestamp }

/-- The answer to an initiation: the message up to MAC1, and the chaining key it ends with. -/
def buildResponse (e : Env) (i : Initiation) (localIdx : Index) (psk : PresharedKey) :
    Except Failure (List UInt8 × Bytes 32) := do
  let localEphemeral := Primitives.clamp e.ephemeral
  let ephPub := P.x25519Public localEphemeral
  let hash := P.mixHash i.hash ephPub.val
  let chainKey := P.mixKey i.chainKey ephPub.val
  -- ee
  let temp ← P.x25519Dh localEphemeral i.remoteEphemeral
  let chainKey := P.mixKey chainKey temp.val
  -- se
  let temp ← P.x25519Dh localEphemeral i.remoteStatic
  let chainKey := P.mixKey chainKey temp.val
  let (chainKey, hash, k) := P.mixPsk chainKey hash psk
  let emptyCt := P.aeadSeal k 0 [] hash.val
  if emptyCt.length ≠ 16 then throw (.error .other "empty seal wrong size")
  return (leBytes 4 MESSAGE_RESPONSE_TYPE ++ leBytes 4 localIdx.toNat ++ leBytes 4 i.senderIdx.toNat ++
    ephPub.val ++ emptyCt, chainKey)

/-- The keypair an initiation creates: what the initiator sends with, this side receives with. -/
def initiationKeypair (e : Env) (id : ℕ) (i : Initiation) (localIdx : Index) (chainKey : Bytes 32) : Keypair where
  id := id
  receiveKey := (P.kdf2 chainKey.val []).1
  sendKey := (P.kdf2 chainKey.val []).2
  created := e.now 7
  localIndex := localIdx
  remoteIndex := i.senderIdx
  peerKey := i.remoteStatic
  isInitiator := false

/-- Answer an initiation. `replay` is set while one accepted from an unknown peer is run again. -/
def processHandshakeInitiation (e : Env) (replay : Bool) (data : List UInt8) (addr : SocketAddr) :
    Action PacketResult := do
  if data.length ≠ MESSAGE_INITIATION_SIZE then fail .invalidData "initiation too short"
  if !(← get).cookieChecker.checkMac1 P data then fail .invalidData "invalid MAC1"
  match ← admitInitiation P e replay data addr with
  | some reply => return reply
  | none =>
    let i ← ofExcept ((← get).openInitiation P data)
    -- the callback for unknown peers runs here; what it does to the handler is further calls
    if !(← get).isAuthorizedPeer i.remoteStatic (e.now 5) then fail .permissionDenied "unauthorized peer"
    acceptPeerInitiation i.remoteStatic i.timestamp (e.now 6)
    let localIdx ← allocateIndex e
    let h ← get
    let (body, chainKey) ← ofExcept (buildResponse P e i localIdx (h.preshared i.remoteStatic))
    let mac1 := P.blake2sMac128 (P.calculateMac1Key i.remoteStatic).val body
    let kp := initiationKeypair P e h.nextId i localIdx chainKey
    set (h.mint kp)
    installResponderKeypair (e.after 8) i.remoteStatic kp
    modify fun h => h.touchPeerHandshake i.remoteStatic (e.now 11)
    return {
      ty := .handshakeResponse
      response := body ++ mac1.val ++ List.replicate 16 0
      peerKey := i.remoteStatic }

/-! ## Cookies -/

def processCookieReply (e : Env) (data : List UInt8) : Action PacketResult := do
  if data.length ≠ MESSAGE_COOKIE_REPLY_SIZE then fail .invalidData "cookie reply too short"
  let receiver : Index := BitVec.ofNat 32 (ofLeBytes (slice data 4 8))
  let h ← get
  match h.handshakes.lookup receiver with
  | none => fail .notFound "no pending handshake for cookie reply"
  | some hs =>
    let key := hs.remoteStatic
    match h.peers.lookup key with
    | none => fail .notFound "no peer for cookie reply"
    | some p =>
      let nonce : Bytes 24 := Bytes.ofSlice 24 (slice data 8 32)
      let g ← ofExcept (p.cookieGen.consumeReply P nonce (data.drop 32) (e.now 0))
      set { h with peers := h.peers.insert key { p with cookieGen := g } }
      return { ty := .cookieReceived, peerKey := key }

end Handler

end PktKit.Wg
