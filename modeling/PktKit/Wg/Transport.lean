import PktKit.Wg.Keypairs

/-! # The data channel

Sealing and opening transport packets under the keypairs of a session.
-/

namespace PktKit.Wg
open Foundations

def MESSAGE_INITIATION_TYPE : ℕ := 1
def MESSAGE_RESPONSE_TYPE : ℕ := 2
def MESSAGE_COOKIE_REPLY_TYPE : ℕ := 3
def MESSAGE_TRANSPORT_TYPE : ℕ := 4
def MESSAGE_TRANSPORT_HEADER_SIZE : ℕ := 16

inductive PacketType
  | handshakeResponse
  | cookieReply
  | transportData
  | keepalive
  | cookieReceived
deriving DecidableEq, Repr

structure PacketResult where
  ty : PacketType
  response : List UInt8 := []
  data : List UInt8 := []
  peerKey : PublicKey
deriving DecidableEq

inductive EncryptError
  | noSession
  | keypairExpired
  | messageLimitExceeded
  | dstTooSmall (needed got : ℕ)
deriving DecidableEq

def EncryptError.text : EncryptError → String
  | .noSession => "no session for peer"
  | .keypairExpired => "keypair expired: initiate new handshake"
  | .messageLimitExceeded => "keypair message limit exceeded: initiate new handshake"
  | .dstTooSmall needed got => "dst too small: need " ++ toString needed ++ ", got " ++ toString got

def EncryptError.kind : EncryptError → ErrorKind
  | .noSession => .notConnected
  | .keypairExpired | .messageLimitExceeded => .other
  | .dstTooSmall .. => .invalidInput

def encryptedSize (plaintextLen : ℕ) : ℕ := MESSAGE_TRANSPORT_HEADER_SIZE + plaintextLen + 16

namespace Handler

variable (P : Primitives)

def note (h : Handler) (ev : Event) : Handler := { h with log := h.log ++ [ev] }

def setCell (h : Handler) (id : ℕ) (c : Cell) : Handler := { h with cells := Function.update h.cells id c }

def wantHandshake (h : Handler) (key : PublicKey) : Handler :=
  h.withTimers key fun t => { t with wantHandshake := true }

/-- Let a packet in under `kp`, once it has authenticated with this counter: the keypair may become
current, and the timers hear of it. -/
def acceptData (e : Env) (h : Handler) (kp : Keypair) (hasData : Bool) : Handler :=
  let h := h.receivedWithKeypair kp
  let age := e.now 0 - kp.created
  let isCurrent := h.isCurrentKeypair kp
  let h := h.withTimers kp.peerKey fun t =>
    let t := t.packetReceived (e.now 1) hasData
    if isCurrent && kp.isInitiator && decide (REJECT_AFTER_TIME - KEEPALIVE_TIMEOUT - REKEY_TIMEOUT ≤ age)
    then { t with wantHandshake := true } else t
  h.touchSessionReceived kp.peerKey (e.now 2)

def replayError (counter : ℕ) : Failure := .error .other ("replay detected: counter=" ++ toString counter)

def processDataPacket (e : Env) (data : List UInt8) : Action PacketResult := do
  if data.length < MESSAGE_TRANSPORT_HEADER_SIZE then
    fail .invalidData ("data packet too short: " ++ toString data.length)
  let msgType := ofLeBytes (slice data 0 4)
  if msgType ≠ MESSAGE_TRANSPORT_TYPE then fail .invalidData ("invalid message type: " ++ toString msgType)
  let receiverIdx : Index := BitVec.ofNat 32 (ofLeBytes (slice data 4 8))
  let counter := ofLeBytes (slice data 8 16)
  let h ← get
  match h.keypairs.lookup receiverIdx with
  | none => fail .notFound "no keypair for receiver index"
  | some kp =>
    if e.now 0 - kp.created > REJECT_AFTER_TIME then fail .other "keypair expired"
    if !h.isAuthorizedPeer kp.peerKey (e.now 1) then fail .permissionDenied "peer not authorized"
    let cell := h.cells kp.id
    if cell.replayFilter.isReplay counter then throw (replayError counter)
    let plaintext ← ofExcept (Primitives.orElse
      (P.aeadOpen kp.receiveKey counter (data.drop MESSAGE_TRANSPORT_HEADER_SIZE) [])
        .invalidData "decrypt failed")
    let (filter, replayed) := cell.replayFilter.checkReplay counter
    modify fun h => h.setCell kp.id { cell with replayFilter := filter }
    if replayed then throw (replayError counter)
    modify fun h => h.note (.opened kp counter (h.peers.lookup kp.peerKey) (e.now 1) (e.now 0))
    modify fun h => h.acceptData (e.after 2) kp (!plaintext.isEmpty)
    return {
      ty := if plaintext.isEmpty then .keepalive else .transportData
      data := plaintext
      peerKey := kp.peerKey }

/-- Seal `data` for a peer, into a buffer of `dstLen` bytes; and whether a rekey is due. -/
def encryptInto (e : Env) (dstLen : ℕ) (data : List UInt8) (key : PublicKey) :
    Action (Except EncryptError (List UInt8 × Bool)) := do
  let needed := encryptedSize data.length
  if dstLen < needed then return .error (.dstTooSmall needed dstLen)
  let h ← get
  if !h.isAuthorizedPeer key (e.now 0) then return .error .noSession
  match ← withCurrentKeypair (e.after 1) key with
  | none =>
    modify fun h => h.wantHandshake key
    return .error .noSession
  | some (kp, age) =>
    if age > REJECT_AFTER_TIME then
      modify fun h => h.wantHandshake key
      return .error .keypairExpired
    let h ← get
    let cell := h.cells kp.id
    let counter := cell.sendCounter.toNat
    modify fun h => (h.setCell kp.id { cell with sendCounter := cell.sendCounter + 1 }).note (.drawn kp counter)
    if REJECT_AFTER_MESSAGES ≤ counter then
      modify fun h => h.wantHandshake key
      return .error .messageLimitExceeded
    let packet := leBytes 4 MESSAGE_TRANSPORT_TYPE ++ leBytes 4 kp.remoteIndex.toNat ++ leBytes 8 counter ++
      P.aeadSeal kp.sendKey counter data []
    modify fun h => h.note (.sealed kp counter (h.peers.lookup kp.peerKey) (e.now 0) (e.now 2))
    let rekey : Bool := decide (REKEY_AFTER_MESSAGES ≤ counter) || decide (REKEY_AFTER_TIME ≤ age)
    modify fun h => h.withTimers key fun t =>
      let t := t.packetSent (e.now 3) (!data.isEmpty)
      if decide (REKEY_AFTER_MESSAGES ≤ counter) || (kp.isInitiator && decide (REKEY_AFTER_TIME ≤ age))
      then { t with wantHandshake := true } else t
    return .ok (packet, rekey)

/-- Seal `data` for a peer; a packet past the rekey threshold is still good. -/
def encryptDataPacket (e : Env) (data : List UInt8) (key : PublicKey) :
    Action (Except EncryptError (List UInt8 × Bool)) :=
  encryptInto P e (encryptedSize data.length) data key

def encrypt (e : Env) (data : List UInt8) (key : PublicKey) : Action (List UInt8) := do
  match ← encryptDataPacket P e data key with
  | .ok (packet, _) => return packet
  | .error err => fail err.kind err.text

end Handler

end PktKit.Wg
