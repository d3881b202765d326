import PktKit.Wg.Cookie
import PktKit.Wg.Replay
import PktKit.Wg.Timers

/-! # The handler's state

One identity: its peers, the handshakes it waits on, the keypairs by local index, and the session of
each peer. A keypair is shared between the index and the slots of its session; its two parts that
change, the send counter and the replay window, are kept apart from it, under its identity.

`log` is not in the source: it says what happened under which keypair, for the properties of runs.
-/

namespace PktKit.Wg
open Foundations

abbrev Index := BitVec 32

def REJECT_AFTER_TIME : Duration := .fromSecs 180
def REKEY_AFTER_TIME : Duration := .fromSecs 120
def REKEY_AFTER_MESSAGES : ℕ := 2 ^ 60
def MIN_INITIATION_INTERVAL : Duration := 1000000000 / 50
def EXPIRED_PEER_GRACE : Duration := REJECT_AFTER_TIME
def MAX_TOMBSTONES : ℕ := 4096

structure PeerEntry where
  publicKey : PublicKey
  presharedKey : PresharedKey
  hasPsk : Bool
  expiresAt : Option Instant := none
  lastHandshake : Option Instant := none
  lastTimestamp : Bytes 12 := Bytes.zero 12
  hasTimestamp : Bool := false
  lastInitiationConsumed : Option Instant := none
  acceptedUnknown : Bool := false
  cookieGen : CookieGenerator
  timers : PeerTimers := {}

def PeerEntry.new (P : Primitives) (key : PublicKey) (psk : PresharedKey) (hasPsk : Bool) : PeerEntry where
  publicKey := key
  presharedKey := psk
  hasPsk := hasPsk
  cookieGen := CookieGenerator.new P key

/-- The last initiation timestamps of peers removed, the one removed longest ago first in `order`. -/
structure Tombstones where
  last : Table PublicKey (Bytes 12) := ∅
  order : List PublicKey := []

namespace Tombstones

def record (t : Tombstones) (p : PeerEntry) : Tombstones :=
  if !p.hasTimestamp then t
  else
    match t.last.lookup p.publicKey with
    | some ts =>
      if ts.val < p.lastTimestamp.val then { t with last := t.last.insert p.publicKey p.lastTimestamp } else t
    | none =>
      let t : Tombstones :=
        match t.order with
        | old :: order => if MAX_TOMBSTONES ≤ t.last.entries.length then ⟨t.last.erase old, order⟩ else t
        | [] => t
      ⟨t.last.insert p.publicKey p.lastTimestamp, t.order ++ [p.publicKey]⟩

def restore (t : Tombstones) (p : PeerEntry) : PeerEntry :=
  match t.last.lookup p.publicKey with
  | some ts => { p with lastTimestamp := ts, hasTimestamp := true }
  | none => p

end Tombstones

structure LoadMeter where
  windowStart : Option Instant := none
  count : ℕ := 0
  until_ : Option Instant := none

/-- A derived transport keypair; `id` is the identity of the shared value. -/
structure Keypair where
  id : ℕ
  sendKey : Bytes 32
  receiveKey : Bytes 32
  created : Instant
  localIndex : Index
  remoteIndex : Index
  peerKey : PublicKey
  isInitiator : Bool
deriving DecidableEq

structure Cell where
  sendCounter : BitVec 64 := 0
  replayFilter : SlidingWindow := .new

structure Session where
  keypairCurrent : Option Keypair := none
  keypairPrev : Option Keypair := none
  keypairNext : Option Keypair := none
  lastReceived : Instant
  lastSent : Instant

inductive HandshakeState
  | zeroed
  | initiationCreated
  | responseCreated
deriving DecidableEq

structure Handshake where
  state : HandshakeState
  hash : Bytes 32
  chainKey : Bytes 32
  localEphemeral : PrivateKey
  localIndex : Index
  remoteIndex : Index
  remoteStatic : PublicKey
  remoteEphemeral : PublicKey
  precomputedStaticStatic : Bytes 32
  created : Instant

/-- What happens under a keypair: the response that created it authenticated, a counter was taken for
sending, a packet went out, a packet was let in. `peer` is the entry of its peer then, `judged` and
`aged` the times at which that and the keypair's age were looked at. -/
inductive Event
  | completed (kp : Keypair)
  | drawn (kp : Keypair) (counter : ℕ)
  | sealed (kp : Keypair) (counter : ℕ) (peer : Option PeerEntry) (judged aged : Instant)
  | opened (kp : Keypair) (counter : ℕ) (peer : Option PeerEntry) (judged aged : Instant)

structure Handler where
  privateKey : PrivateKey
  publicKey : PublicKey
  peers : Table PublicKey PeerEntry := ∅
  handshakes : Table Index Handshake := ∅
  keypairs : Table Index Keypair := ∅
  sessions : Table PublicKey Session := ∅
  unknownPeerLimit : ℕ
  loadThreshold : ℕ
  load : LoadMeter := {}
  cookieChecker : CookieChecker
  ratelimiter : RateLimiter := {}
  tombstones : Tombstones := {}
  cells : ℕ → Cell := fun _ => {}
  nextId : ℕ := 0
  log : List Event := []

/-- What a call takes from outside: a reading of the clock for each place that reads it, in the order
of the places, and what it draws at random. -/
structure Env where
  now : ℕ → Instant
  /-- indexes drawn -/
  draws : List Index := []
  /-- indexes the other members of a multiplexer use -/
  taken : Index → Bool := fun _ => false
  ephemeral : Bytes 32 := Bytes.zero 32
  timestamp : Bytes 12 := Bytes.zero 12
  nonce : Bytes 24 := Bytes.zero 24
  secret : Bytes 32 := Bytes.zero 32
  random : ℕ := 0

def Env.after (e : Env) (k : ℕ) : Env := { e with now := fun i => e.now (k + i) }

/-- A call on a handler; what it did before it failed stays done. -/
abbrev Action := EStateM Failure Handler

def fail {α : Type} (kind : ErrorKind) (text : String) : Action α := throw (.error kind text)

/-- A handler on its first private key; a zero key is replaced by a drawn one. -/
def Handler.new (P : Primitives) (e : Env) (privateKey : PrivateKey) (loadThreshold unknownPeerLimit : Option ℕ) :
    Handler :=
  let privKey := if privateKey = Bytes.zero 32 then Primitives.clamp e.ephemeral else privateKey
  let pubKey := P.x25519Public privKey
  { privateKey := privKey
    publicKey := pubKey
    unknownPeerLimit := unknownPeerLimit.getD 10000
    loadThreshold := loadThreshold.getD 1000
    cookieChecker := CookieChecker.new P pubKey e.secret (e.now 0) }

namespace Handler

/-! ## Peers -/

def authorized (p : Option PeerEntry) (now : Instant) : Bool := p.any fun p => p.expiresAt.all (now ≤ ·)

def isAuthorizedPeer (h : Handler) (key : PublicKey) (now : Instant) : Bool := authorized (h.peers.lookup key) now

def newEntry (P : Primitives) (h : Handler) (key : PublicKey) (psk : PresharedKey) (hasPsk : Bool) : PeerEntry :=
  h.tombstones.restore (PeerEntry.new P key psk hasPsk)

def addPeerLocked (P : Primitives) (h : Handler) (key : PublicKey) (acceptedUnknown : Bool) : Handler :=
  match h.peers.lookup key with
  | some p =>
    let p := { p with expiresAt := none, acceptedUnknown := p.acceptedUnknown && acceptedUnknown }
    { h with peers := h.peers.insert key p }
  | none =>
    let p := { h.newEntry P key (Bytes.zero 32) false with acceptedUnknown := acceptedUnknown }
    { h with peers := h.peers.insert key p }

def addPeer (P : Primitives) (h : Handler) (key : PublicKey) : Handler := h.addPeerLocked P key false

def addPeerWithPsk (P : Primitives) (h : Handler) (key : PublicKey) (psk : PresharedKey) : Handler :=
  match h.peers.lookup key with
  | some p =>
    let p := { p with presharedKey := psk, hasPsk := true, expiresAt := none, acceptedUnknown := false }
    { h with peers := h.peers.insert key p }
  | none => { h with peers := h.peers.insert key (h.newEntry P key psk true) }

/-- Take a peer out of the table, remembering its last timestamp. -/
def takePeerLocked (h : Handler) (key : PublicKey) : Handler :=
  match h.peers.lookup key with
  | some p => { h with peers := h.peers.erase key, tombstones := h.tombstones.record p }
  | none => h

/-- Tear down what belongs to peers already out of the table. -/
def forgetPeers (h : Handler) (gone : List PublicKey) : Handler :=
  { h with
    handshakes := h.handshakes.retain fun _ hs => !gone.contains hs.remoteStatic
    sessions := gone.foldl (fun s k => s.erase k) h.sessions
    keypairs := h.keypairs.retain fun _ kp => !gone.contains kp.peerKey }

def removePeer (h : Handler) (key : PublicKey) : Handler := (h.takePeerLocked key).forgetPeers [key]

def setPeerExpiry (h : Handler) (key : PublicKey) (at_ : Instant) : Handler :=
  { h with peers := h.peers.modify key fun p => { p with expiresAt := some at_ } }

def preshared (h : Handler) (key : PublicKey) : PresharedKey :=
  match h.peers.lookup key with
  | some p => if p.hasPsk then p.presharedKey else Bytes.zero 32
  | none => Bytes.zero 32

def touchPeerHandshake (h : Handler) (key : PublicKey) (now : Instant) : Handler :=
  { h with peers := h.peers.modify key fun p => { p with lastHandshake := some now } }

def withTimers (h : Handler) (key : PublicKey) (f : PeerTimers → PeerTimers) : Handler :=
  { h with peers := h.peers.modify key fun p => { p with timers := f p.timers } }

def setPersistentKeepalive (h : Handler) (key : PublicKey) (interval : Option Duration) : Handler :=
  h.withTimers key fun t => { t with persistentKeepalive := interval }

/-! ## Load -/

def underLoad (h : Handler) (count : Bool) (now : Instant) : Handler × Bool :=
  let m := h.load
  let m := if m.windowStart.all fun t => Duration.fromSecs 1 ≤ now - t
    then { m with windowStart := some now, count := 0 } else m
  let m :=
    if count then
      let m := { m with count := min (m.count + 1) (2 ^ 64 - 1) }
      if m.count > h.loadThreshold then { m with until_ := some (now + Duration.fromSecs 1) } else m
    else m
  ({ h with load := m }, m.until_.any (now < ·))

end Handler

end PktKit.Wg
