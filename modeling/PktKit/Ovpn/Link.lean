import PktKit.Foundations.Runs
import PktKit.Ovpn.Reliable

/-! # Two ends of a control stream

Two endpoints and a network that loses, repeats, delays and reorders what they send.
-/

namespace PktKit.Ovpn
open Foundations

/-- The reliable layer at one end, and what went through it: the bytes queued, the packets built by
their ids, the bytes handed up and the packets refused. -/
structure Endpoint where
  rel : Reliable
  queued : List UInt8 := []
  built : List ControlPacket := []
  handed : List UInt8 := []
  refused : List Refusal := []

namespace Endpoint

def queue (e : Endpoint) (data : List UInt8) : Endpoint :=
  { e with rel := e.rel.queueTls data, queued := e.queued ++ data }

/-- Packets go out with the acknowledgements owed, as many as fit each. -/
def attach : Endpoint → List ControlPacket → Endpoint × List (List UInt8)
  | e, [] => (e, [])
  | e, pkt :: pkts =>
    let (rel, acks) := e.rel.takePendingAcks
    let (e, sent) := attach { e with rel } pkts
    (e, pkt.toBytes acks :: sent)

def flush (e : Endpoint) (clock : ℕ → Instant) : Endpoint × List (List UInt8) :=
  let (rel, pkts) := e.rel.flushTls clock e.rel.held.length
  attach { e with rel, built := e.built ++ pkts } pkts

def ack (e : Endpoint) : Endpoint × List (List UInt8) :=
  let (rel, acks) := e.rel.takePendingAcks
  ({ e with rel }, [rel.buildAck.toBytes acks])

def tick (e : Endpoint) (now : Instant) : Endpoint × List (List UInt8) :=
  let (rel, sent) := e.rel.tick now
  ({ e with rel }, sent)

def reset (e : Endpoint) (opcode : Opcode) (now : Instant) : Endpoint × List (List UInt8) :=
  let (rel, pkt) := e.rel.buildReset opcode now
  attach { e with rel, built := e.built ++ [pkt] } [pkt]

def receive (e : Endpoint) (data : List UInt8) : Endpoint :=
  match e.rel.recv data with
  | (rel, .ok bytes) => { e with rel, handed := e.handed ++ bytes }
  | (rel, .error err) => { e with rel, refused := e.refused ++ [err] }

end Endpoint

/-- The two ends, and all that each has sent. -/
structure Link where
  ends : Bool → Endpoint
  sent : Bool → List (List UInt8) := fun _ => []

inductive Event
  | queue (side : Bool) (data : List UInt8)
  | flush (side : Bool) (clock : ℕ → Instant)
  | ack (side : Bool)
  | tick (side : Bool) (now : Instant)
  /-- a reset is the first packet of its stream -/
  | reset (side : Bool) (opcode : Opcode) (now : Instant)
  /-- one end gets what the other sent, at whatever time and however often -/
  | deliver (side : Bool) (k : ℕ)

namespace Link

def set (l : Link) (side : Bool) (r : Endpoint × List (List UInt8)) : Link where
  ends := Function.update l.ends side r.1
  sent := Function.update l.sent side (l.sent side ++ r.2)

def step (l : Link) : Event → Option Link
  | .queue side data => some (l.set side ((l.ends side).queue data, []))
  | .flush side clock => some (l.set side ((l.ends side).flush clock))
  | .ack side => some (l.set side (l.ends side).ack)
  | .tick side now => some (l.set side ((l.ends side).tick now))
  | .reset side opcode now =>
    if (l.ends side).rel.outCounter = 0 ∧ (opcode = .CONTROL_HARD_RESET_CLIENT_V2 ∨
        opcode = .CONTROL_HARD_RESET_SERVER_V2 ∨ opcode = .CONTROL_SOFT_RESET_V1) then
      some (l.set side ((l.ends side).reset opcode now))
    else none
  | .deliver side k => (l.sent (!side))[k]?.map fun data => l.set side ((l.ends side).receive data, [])

def start (localId peerId : Bool → SessionId) (keyId : ℕ) : Link where
  ends side := { rel := { localId := localId side, peerId := peerId side, keyId } }

def reply (client server : SessionId) : ControlPacket :=
  { opcode := .CONTROL_HARD_RESET_SERVER_V2, keyId := 0, pid := some 0, sessionId := server, remoteId := client }

/-- A client whose reset was answered so, and the server that then opens the session. -/
def opened (client server : SessionId) (now : Instant) : Link :=
  let (rel, reset) := (Reliable.new client).buildReset .CONTROL_HARD_RESET_CLIENT_V2 now
  { ends := fun
      | false => Endpoint.receive { rel, built := [reset] } ((reply client server).toBytes [0])
      | true =>
        { rel := Reliable.skipReset { localId := server, peerId := client }, built := [reply client server] }
    sent := fun
      | false => [reset.toBytes []]
      | true => [(reply client server).toBytes [0]] }

inductive Opens : Link → Prop
  | fresh (localId peerId : Bool → SessionId) (keyId : ℕ) : Opens (start localId peerId keyId)
  | answered (client server : SessionId) (now : Instant) : Opens (opened client server now)

end Link

/-- A packet is taken: handed up, or waiting for those before it. -/
def Reliable.Taken (r : Reliable) (pid : ℕ) : Prop := pid < r.inCounter ∨ (r.inBuf.lookup pid).isSome

/-- What one end sends, the other takes. -/
structure Delivers (s r : Endpoint) : Prop where
  handed : r.handed <+: s.queued
  acked : ∀ pid < s.built.length, s.rel.unacked.lookup pid = none → r.rel.Taken pid
  refused : Refusal.window ∉ r.refused
  buffered : r.rel.inBuf.entries.length ≤ TLS_RELIABLE_N_REC_BUFFERS - 1

/-- The ids for which the end of the window is a 32-bit number. -/
def ID_LIMIT : ℕ := 2 ^ 32 - 1 - TLS_RELIABLE_N_REC_BUFFERS

end PktKit.Ovpn
