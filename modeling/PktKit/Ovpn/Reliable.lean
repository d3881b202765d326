import PktKit.Foundations.Tables
import PktKit.Ovpn.ControlPacket
import PktKit.Time

/-! # The reliable layer

Outgoing packets get ids and are kept until they are acknowledged; incoming ones are put in order.
Ids and counters are 32-bit.
-/

namespace PktKit.Ovpn
open Foundations

def RETRANSMIT_INITIAL : Duration := .fromSecs 1
def RETRANSMIT_MAX_INTERVAL : Duration := .fromSecs 8

/-- An outgoing packet that waits for its acknowledgement. -/
structure Unacked where
  pkt : ControlPacket
  lastSent : Instant
  attempts : ℕ

structure Reliable where
  localId : SessionId
  peerId : SessionId := .zero
  keyId : ℕ := 0
  outCounter : ℕ := 0
  unacked : Table ℕ Unacked := ∅
  held : List UInt8 := []
  inCounter : ℕ := 0
  inBuf : Table ℕ ControlPacket := ∅
  pendingAck : List ℕ := []

/-- When a packet sent so many times is due again. -/
def backoff (attempts : ℕ) : Duration :=
  min (RETRANSMIT_INITIAL * 2 ^ min (attempts - 1) 16) RETRANSMIT_MAX_INTERVAL

namespace Reliable

def new (localId : SessionId) : Reliable := { localId }

/-! ## Receiving -/

def purge (r : Reliable) (acked : List ℕ) : Reliable :=
  { r with unacked := acked.foldl (fun t pid => t.erase pid) r.unacked }

def isReset (op : Opcode) : Bool := op = .CONTROL_HARD_RESET_CLIENT_V2 || op = .CONTROL_HARD_RESET_SERVER_V2

/-- The id of a packet that is taken; an acknowledgement has none. -/
def check (r : Reliable) (pkt : ControlPacket) : Except Refusal (Option ℕ) := do
  let pid ←
    if pkt.opcode = .ACK_V1 then .ok none
    else match pkt.pid with
      | some pid => .ok (some pid)
      | none => .error .missingId
  if isReset pkt.opcode && pid != some 0 then throw .resetId
  if pid.any fun pid => decide ((r.inCounter + TLS_RELIABLE_N_REC_BUFFERS) % 2 ^ 32 ≤ pid) then throw .window
  if pkt.payload.length > MAX_CONTROL_PAYLOAD then throw .tooBig
  return pid

/-- Hand up what is next in order, as far as it is there. -/
def drain : ℕ → Reliable → Reliable × List UInt8
  | 0, r => (r, [])
  | n + 1, r =>
    match r.inBuf.lookup r.inCounter with
    | none => (r, [])
    | some p =>
      let (r, bytes) := drain n { r with inBuf := r.inBuf.erase r.inCounter, inCounter := (r.inCounter + 1) % 2 ^ 32 }
      (r, (if p.opcode = .CONTROL_V1 then p.payload else []) ++ bytes)

def store (r : Reliable) (pid : ℕ) (pkt : ControlPacket) : Reliable :=
  if (r.inBuf.lookup pid).isSome then r else { r with inBuf := r.inBuf.insert pid { pkt with ackedPids := [] } }

def owe (r : Reliable) (pid : ℕ) : Reliable :=
  if r.pendingAck.contains pid then r else { r with pendingAck := r.pendingAck ++ [pid] }

/-- The client learns the session of the server from its reset. -/
def learnPeer (r : Reliable) (pkt : ControlPacket) : Reliable :=
  if pkt.opcode = .CONTROL_HARD_RESET_SERVER_V2 ∧ r.peerId = .zero then { r with peerId := pkt.sessionId } else r

def accept (r : Reliable) (pkt : ControlPacket) (pid : ℕ) : Reliable × List UInt8 :=
  let r := (r.owe pid).learnPeer pkt
  if pid < r.inCounter then (r, [])
  else
    let r := r.store pid pkt
    drain r.inBuf.entries.length r

/-- An incoming packet, and the bytes it makes available. What it acknowledges counts even if it is
refused, unless that is of another session. -/
def recvPacket (r : Reliable) (pkt : ControlPacket) : Reliable × Except Refusal (List UInt8) :=
  if !pkt.ackedPids.isEmpty && pkt.remoteId != r.localId then (r, .error .otherSession)
  else
    let r := r.purge pkt.ackedPids
    match r.check pkt with
    | .error e => (r, .error e)
    | .ok none => (r, .ok [])
    | .ok (some pid) =>
      let (r, bytes) := r.accept pkt pid
      (r, .ok bytes)

def recv (r : Reliable) (data : List UInt8) : Reliable × Except Refusal (List UInt8) :=
  match ControlPacket.parse data with
  | .error e => (r, .error e)
  | .ok pkt => r.recvPacket pkt

/-- The acknowledgements the next packet carries, the oldest first. -/
def takePendingAcks (r : Reliable) : Reliable × List ℕ :=
  ({ r with pendingAck := r.pendingAck.drop CONTROL_SEND_ACK_MAX }, r.pendingAck.take CONTROL_SEND_ACK_MAX)

/-! ## Sending -/

/-- A packet with the next id, kept until it is acknowledged. -/
def build (r : Reliable) (opcode : Opcode) (payload : List UInt8) (now : Instant) : Reliable × ControlPacket :=
  let pkt : ControlPacket :=
    { opcode, keyId := r.keyId, pid := some r.outCounter, sessionId := r.localId, remoteId := r.peerId, payload }
  ({ r with
      outCounter := (r.outCounter + 1) % 2 ^ 32
      unacked := r.unacked.insert r.outCounter ⟨pkt, now, 1⟩ }, pkt)

def buildControl (r : Reliable) (payload : List UInt8) (now : Instant) : Reliable × ControlPacket :=
  r.build .CONTROL_V1 payload now

def buildReset (r : Reliable) (opcode : Opcode) (now : Instant) : Reliable × ControlPacket := r.build opcode [] now

def buildAck (r : Reliable) : ControlPacket :=
  { opcode := .ACK_V1, keyId := r.keyId, sessionId := r.localId, remoteId := r.peerId }

def queueTls (r : Reliable) (data : List UInt8) : Reliable := { r with held := r.held ++ data }

/-- There is room in the send window: the id is near enough to the oldest unacknowledged one. -/
def canSend (r : Reliable) : Bool :=
  match r.unacked.keys.min? with
  | some oldest => decide (r.outCounter < min (oldest + TLS_RELIABLE_N_SEND_BUFFERS) (2 ^ 32 - 1))
  | none => true

/-- Put as much of what is held in packets as the window allows; `clock` is read for each. -/
def flushTls (clock : ℕ → Instant) : ℕ → Reliable → Reliable × List ControlPacket
  | 0, r => (r, [])
  | n + 1, r =>
    if r.held.isEmpty || !r.canSend then (r, [])
    else
      let chunk := r.held.take CONTROL_CHANNEL_MTU
      let (r, pkt) := { r with held := r.held.drop CONTROL_CHANNEL_MTU }.buildControl chunk (clock n)
      let (r, pkts) := flushTls clock n r
      (r, pkt :: pkts)

def skipReset (r : Reliable) : Reliable :=
  { r with outCounter := max r.outCounter 1, inCounter := max r.inCounter 1 }

def due (r : Reliable) (now : Instant) : List ℕ :=
  (r.unacked.keys.filter fun pid => (r.unacked.lookup pid).any fun u =>
    decide (backoff u.attempts ≤ now - u.lastSent)).mergeSort

def tick (r : Reliable) (now : Instant) : Reliable × List (List UInt8) :=
  ((r.due now).foldl (fun r pid => { r with unacked := r.unacked.modify pid fun u =>
      { u with attempts := min (u.attempts + 1) (2 ^ 32 - 1), lastSent := now } }) r,
    (r.due now).filterMap fun pid => (r.unacked.lookup pid).map (·.pkt.toBytes []))

end Reliable

end PktKit.Ovpn
