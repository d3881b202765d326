import PktKit.Foundations.Runs
import PktKit.Wg.Handshake

/-! # Calls on a handler, and runs of them -/

namespace PktKit.Wg
open Foundations

namespace Handler

variable (P : Primitives)

def processPacketAs (e : Env) (replay : Bool) (data : List UInt8) (addr : SocketAddr) : Action PacketResult := do
  if data.length < 4 then fail .invalidData "packet too short"
  let msgType := ofLeBytes (slice data 0 4)
  if msgType = MESSAGE_INITIATION_TYPE then processHandshakeInitiation P e replay data addr
  else if msgType = MESSAGE_RESPONSE_TYPE then processHandshakeResponse P e data
  else if msgType = MESSAGE_COOKIE_REPLY_TYPE then processCookieReply P e data
  else if msgType = MESSAGE_TRANSPORT_TYPE then processDataPacket P e data
  else fail .invalidData ("unknown message type: " ++ toString msgType)

def processPacket (e : Env) (data : List UInt8) (addr : SocketAddr) : Action PacketResult :=
  processPacketAs P e false data addr

def acceptUnknownPeer (e : Env) (key : PublicKey) (packet : List UInt8) (addr : SocketAddr) :
    Action (List UInt8) := do
  addUnknownPeer P e key
  let h ← get
  if !h.isAuthorizedPeer key (e.now 1) then fail .permissionDenied "peer not authorized after adding it"
  let res ← processPacketAs P (e.after 2) true packet addr
  return res.response

/-! ## Polling the timers -/

inductive TimerAction
  | sendHandshake (peer : PublicKey) (packet : List UInt8)
  | sendKeepalive (peer : PublicKey) (packet : List UInt8)
  | handshakeFailed (peer : PublicKey)

def hasSession (h : Handler) (e : Env) (key : PublicKey) : Bool :=
  h.isAuthorizedPeer key (e.now 0) && ((h.sessions.lookup key).bind (·.keypairCurrent)).any fun kp =>
    decide (e.now 1 - kp.created ≤ REJECT_AFTER_TIME) &&
      decide ((h.cells kp.id).sendCounter.toNat < REJECT_AFTER_MESSAGES)

/-- Run a call whose failure only means that it has nothing to send; while it draws indexes it has not
come back. -/
def attempt {α : Type} (m : Action α) : Action (Option α) := fun h =>
  match m h with
  | .ok a h => .ok (some a) h
  | .error .drawing h => .error .drawing h
  | .error (.error ..) h => .ok none h

/-- An initiation, if one is due; `none` is an attempt given up. -/
def pollHandshake (e : Env) (now : Instant) (key : PublicKey) : Option Bool → Action (List TimerAction)
  | none => return [.handshakeFailed key]
  | some false => return []
  | some true => do
    match ← attempt (initiateHandshakeAt P e key now) with
    | some packet => return [.sendHandshake key packet]
    | none => return [.handshakeFailed key]

/-- A keepalive that is due; without a session it asks for one, once. -/
def pollKeepalive (e : Env) (key : PublicKey) : Action (List TimerAction) := do
  if (← get).hasSession e key then
    match ← attempt (encrypt P (e.after 2) [] key) with
    | some packet => return [.sendKeepalive key packet]
    | none => return []
  modify fun h => h.withTimers key fun t =>
    { t with
      keepaliveDueSince := none
      wantHandshake := t.wantHandshake || h.isAuthorizedPeer key (e.now 2) }
  return []

def pollPeer (e : Env) (now : Instant) (key : PublicKey) : Action (List TimerAction) := do
  let h ← get
  match h.peers.lookup key with
  | none => return []
  | some p =>
    let (t, due) := p.timers.handshakeDue now
    let t := if due = some true then t.initiationSent now e.random else t
    set (h.withTimers key fun _ => t)
    let first ← pollHandshake P e now key due
    let second ← if t.keepaliveDue now then pollKeepalive P (e.after 3) key else pure []
    return first ++ second

def pollTimers (e : Env) (rands : ℕ → Env) : Action (List TimerAction) := do
  let h ← get
  let actions ← h.peers.keys.zipIdx.mapM fun (key, i) =>
    pollPeer P { rands i with now := fun j => e.now (1 + 16 * i + j) } (e.now 0) key
  return actions.flatten

end Handler

/-! ## Runs -/

/-- The readings a call takes of a clock that does not go back; `stop` is when it returns. -/
structure Clock where
  at_ : ℕ → Instant
  mono : Monotone at_
  stop : Instant
  le_stop : ∀ i, at_ i ≤ stop

def Clock.still (t : Instant) : Clock := ⟨fun _ => t, fun _ _ _ => le_rfl, t, fun _ => le_rfl⟩

inductive Op
  | processPacket (data : List UInt8) (addr : SocketAddr)
  | encrypt (data : List UInt8) (key : PublicKey)
  | initiateHandshake (key : PublicKey)
  | addPeer (key : PublicKey)
  | addPeerWithPsk (key : PublicKey) (psk : PresharedKey)
  | removePeer (key : PublicKey)
  | setPeerExpiry (key : PublicKey) (at_ : Instant)
  | acceptUnknownPeer (key : PublicKey) (packet : List UInt8) (addr : SocketAddr)
  | setPersistentKeepalive (key : PublicKey) (interval : Option Duration)
  | pollTimers (rands : ℕ → Env)
  | maintenance
  | close

structure Call where
  clock : Clock
  /-- what it draws at random -/
  rand : Env
  op : Op

def Call.env (c : Call) : Env := { c.rand with now := c.clock.at_ }

/-- The handler after a call; a call that fails may have changed it too. -/
def Op.perform (P : Primitives) (e : Env) : Op → Action Unit
  | .processPacket data addr => discard (Handler.processPacket P e data addr)
  | .encrypt data key => discard (Handler.encrypt P e data key)
  | .initiateHandshake key => discard (Handler.initiateHandshake P e key)
  | .addPeer key => modify (·.addPeer P key)
  | .addPeerWithPsk key psk => modify (·.addPeerWithPsk P key psk)
  | .removePeer key => modify (·.removePeer key)
  | .setPeerExpiry key at_ => modify (·.setPeerExpiry key at_)
  | .acceptUnknownPeer key packet addr => discard (Handler.acceptUnknownPeer P e key packet addr)
  | .setPersistentKeepalive key interval => modify (·.setPersistentKeepalive key interval)
  | .pollTimers rands => discard (Handler.pollTimers P e rands)
  | .maintenance => modify (Handler.maintenance e)
  | .close => modify (·.close)

/-- A handler, and when its last call returned. -/
structure Running where
  handler : Handler
  last : Instant

def Running.step (P : Primitives) (s : Running) (c : Call) : Option Running :=
  if s.last ≤ c.clock.at_ 0 then
    match c.op.perform P c.env s.handler with
    | .ok _ h => some ⟨h, c.clock.stop⟩
    | .error (.error ..) h => some ⟨h, c.clock.stop⟩
    | .error .drawing _ => none
  else none

/-! ## Two identities to run -/

def keyOf (b : UInt8) : PrivateKey := ⟨b :: List.replicate 31 0, by simp⟩

def publicOf (b : UInt8) : PublicKey := Primitives.plain.x25519Public (keyOf b)

def Running.start (b : UInt8) : Running := ⟨Handler.new .plain { now := fun _ => 0 } (keyOf b) none none, 0⟩

/-- A call while the clock stands at `t`, which draws the index `idx`. -/
def Call.still (t : Instant) (idx : Index) (op : Op) : Call :=
  ⟨.still t, { now := fun _ => t, draws := [idx] }, op⟩

def Op.datagram (data : List UInt8) : Op := .processPacket data ⟨.v4 (Bytes.zero 4), 0⟩

/-- The initiation of the identity 8 to the identity 16, under the index 7. -/
def initiation : List UInt8 :=
  match Handler.initiateHandshake .plain { now := fun _ => 0, draws := [7] } (publicOf 16)
    ((Running.start 8).handler.addPeer .plain (publicOf 16)) with
  | .ok data _ => data
  | .error .. => []

/-- The identity 16 hears from the identity 8, and draws the index 9. -/
def answered : List Call := [.still 0 0 (.addPeer (publicOf 8)), .still 1 9 (.datagram initiation)]

def response : List UInt8 :=
  match Handler.processPacket .plain { now := fun _ => 1, draws := [9] } initiation ⟨.v4 (Bytes.zero 4), 0⟩
    ((Running.start 16).handler.addPeer .plain (publicOf 8)) with
  | .ok result _ => result.response
  | .error .. => []

/-- The identity 8 initiates and takes the answer. -/
def completed : List Call :=
  [.still 0 0 (.addPeer (publicOf 16)), .still 0 7 (.initiateHandshake (publicOf 16)),
    .still 1 0 (.datagram response)]

end PktKit.Wg
