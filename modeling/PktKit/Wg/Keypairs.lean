import PktKit.Wg.Handler

/-! # The tables of a handler

Pending handshakes and keypairs under their local indexes, and the three slots of a session: `next`
is derived as responder and not yet confirmed, `current` is sent with, `prev` is the one before.
-/

namespace PktKit.Wg
open Foundations

def Session.slots (s : Session) : List Keypair :=
  s.keypairCurrent.toList ++ s.keypairPrev.toList ++ s.keypairNext.toList

namespace Handler

/-! ## Indexes and pending handshakes -/

def inUse (h : Handler) (idx : Index) : Bool := (h.handshakes.lookup idx).isSome || (h.keypairs.lookup idx).isSome

/-- The first index drawn that is not zero and free here and in every other member. -/
def allocateIndex (e : Env) : Action Index := do
  let h ← get
  match e.draws.find? fun idx => idx != 0 && !h.inUse idx && !e.taken idx with
  | some idx => return idx
  | none => throw .drawing

/-- One pending initiation for a peer: a retry supersedes the last. -/
def insertHandshake (idx : Index) (hs : Handshake) : Action Unit := do
  modify fun h => { h with handshakes := h.handshakes.retain fun _ old => old.remoteStatic != hs.remoteStatic }
  let h ← get
  if h.inUse idx then fail .addrInUse "local index in use"
  else set { h with handshakes := h.handshakes.insert idx hs }

/-- Remove the pending handshake; false if it is gone already. -/
def completeHandshake (idx : Index) : Action Bool := do
  let h ← get
  set { h with handshakes := h.handshakes.erase idx }
  return (h.handshakes.lookup idx).isSome

/-! ## Sessions -/

def unindex (t : Table Index Keypair) (gone : List Keypair) : Table Index Keypair :=
  gone.foldl (fun t old => t.erase old.localIndex) t

/-- Index a keypair and give it a slot by `place`, which returns the keypairs it displaced. -/
def install (e : Env) (key : PublicKey) (kp : Keypair) (place : Session → Keypair → Session × List Keypair) :
    Action Unit := do
  let h ← get
  if !h.isAuthorizedPeer key (e.now 0) then fail .permissionDenied "peer not authorized"
  if (h.keypairs.lookup kp.localIndex).isSome then fail .addrInUse "local index in use"
  let s := (h.sessions.lookup key).getD { lastReceived := e.now 1, lastSent := e.now 2 }
  let (s, gone) := place s kp
  set { h with
    sessions := h.sessions.insert key s
    keypairs := unindex (h.keypairs.insert kp.localIndex kp) gone }

/-- A keypair we initiated is current at once. A next keypair then means that both ends initiated at
once: it becomes the previous one, in place of current. -/
def placeInitiator (s : Session) (kp : Keypair) : Session × List Keypair :=
  match s.keypairNext with
  | some next =>
    ({ s with keypairPrev := some next, keypairNext := none, keypairCurrent := some kp },
      s.keypairPrev.toList ++ s.keypairCurrent.toList)
  | none => ({ s with keypairPrev := s.keypairCurrent, keypairCurrent := some kp }, s.keypairPrev.toList)

/-- A keypair we answered for waits for the initiator's first packet. -/
def placeResponder (s : Session) (kp : Keypair) : Session × List Keypair :=
  ({ s with keypairNext := some kp }, s.keypairNext.toList)

def installInitiatorKeypair (e : Env) (key : PublicKey) (kp : Keypair) : Action Unit :=
  install e key kp placeInitiator

def installResponderKeypair (e : Env) (key : PublicKey) (kp : Keypair) : Action Unit :=
  install e key kp placeResponder

def isCurrentKeypair (h : Handler) (kp : Keypair) : Bool :=
  ((h.sessions.lookup kp.peerKey).bind (·.keypairCurrent)).any (·.id == kp.id)

/-- A packet authenticated under `kp`: if that is the next keypair, it is current from now on. -/
def receivedWithKeypair (h : Handler) (kp : Keypair) : Handler :=
  match h.sessions.lookup kp.peerKey with
  | none => h
  | some s =>
    if !(s.keypairNext.any (·.id == kp.id)) then h
    else
      let s' := { s with
        keypairNext := none, keypairPrev := s.keypairCurrent, keypairCurrent := s.keypairNext }
      let h := { h with sessions := h.sessions.insert kp.peerKey s' }
      let h := match s.keypairPrev with
        | some old => { h with keypairs := h.keypairs.erase old.localIndex }
        | none => h
      h.withTimers kp.peerKey (·.handshakeComplete)

def touchSessionReceived (h : Handler) (key : PublicKey) (now : Instant) : Handler :=
  { h with sessions := h.sessions.modify key fun s => { s with lastReceived := now } }

def touchSessionSent (h : Handler) (key : PublicKey) (now : Instant) : Handler :=
  { h with sessions := h.sessions.modify key fun s => { s with lastSent := now } }

/-- The current keypair of a peer, noting that something is sent. -/
def withCurrentKeypair (e : Env) (key : PublicKey) : Action (Option (Keypair × Duration)) := do
  let h ← get
  match (h.sessions.lookup key).bind (·.keypairCurrent) with
  | none => return none
  | some kp =>
    set (h.touchSessionSent key (e.now 0))
    return some (kp, e.now 1 - kp.created)

/-! ## Maintenance -/

/-- Drop the peers accepted as unknown that expired long ago. -/
def pruneExpiredPeers (h : Handler) (now : Instant) : Handler :=
  let gone := (h.peers.values.filter fun p =>
    p.acceptedUnknown && p.expiresAt.any fun exp => decide (now - exp > EXPIRED_PEER_GRACE)).map (·.publicKey)
  let h := gone.foldl takePeerLocked h
  if gone.isEmpty then h else h.forgetPeers gone

def cleanupHandshakes (h : Handler) (now : Instant) : Handler :=
  { h with handshakes := h.handshakes.retain fun _ hs => now - hs.created ≤ REJECT_AFTER_TIME }

/-- A keypair too old to send or receive with. -/
def expired (now : Instant) (kp : Keypair) : Bool := decide (now - kp.created > REJECT_AFTER_TIME)

def cleanSession (now : Instant) (s : Session) : Session :=
  { s with
    keypairCurrent := s.keypairCurrent.filter (!expired now ·)
    keypairPrev := s.keypairPrev.filter (!expired now ·)
    keypairNext := s.keypairNext.filter (!expired now ·) }

def keepsSession (now : Instant) (s : Session) : Bool :=
  decide (now - max s.lastReceived s.lastSent ≤ REJECT_AFTER_TIME)
    || s.keypairCurrent.isSome || s.keypairNext.isSome

def cleanupSessions (h : Handler) (now : Instant) : Handler :=
  { h with
    keypairs := unindex h.keypairs (h.sessions.values.flatMap fun s => s.slots.filter (expired now))
    sessions := (h.sessions.mapValues (cleanSession now)).retain fun _ s => keepsSession now s }

def maintenance (e : Env) (h : Handler) : Handler :=
  ((h.pruneExpiredPeers (e.now 0)).cleanupHandshakes (e.now 1)).cleanupSessions (e.now 2)

def close (h : Handler) : Handler := { h with handshakes := ∅, keypairs := ∅, sessions := ∅ }

/-! ## Peers accepted as unknown -/

/-- The accepted-unknown peer that expired longest ago. -/
def victim (h : Handler) (now : Instant) : Option PublicKey :=
  let lapsed := h.peers.values.filter fun p => p.acceptedUnknown && p.expiresAt.any (decide <| · < now)
  (lapsed.argmin fun p => p.expiresAt.getD 0).map (·.publicKey)

/-- Authorize a peer handed out as unknown; in a full table one long expired makes room. -/
def addUnknownPeer (P : Primitives) (e : Env) (key : PublicKey) : Action Unit := do
  let h ← get
  if (h.peers.lookup key).isNone && decide (h.unknownPeerLimit ≤ h.peers.entries.length) then
    match h.victim (e.now 0) with
    | none => fail .other "peer table full"
    | some v => set (((h.takePeerLocked v).addPeerLocked P key true).forgetPeers [v])
  else set (h.addPeerLocked P key true)

end Handler

end PktKit.Wg
