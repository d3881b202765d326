import PktKit.Dhcp.Leases

/-! # The DHCP client

What a reply and a tick do to the client, and the calls each makes to the transport. Operations run one after
the other, and the clock is read once for each.
-/

namespace PktKit.Dhcp.Client

def MSG_OFFER : ℕ := 2
def MSG_ACK : ℕ := 5
def MSG_NAK : ℕ := 6

def FIRST_RETRANSMIT : Duration := .fromSecs 4
def MAX_RETRANSMIT : Duration := .fromSecs 64
def MAX_REQUESTS : ℕ := 5
def MIN_RENEW_RETRANSMIT : Duration := .fromSecs 60
def PROBE_NUM : ℕ := 3
def PROBE_INTERVAL : Duration := .fromSecs 1
def ANNOUNCE_WAIT : Duration := .fromSecs 2
def ANNOUNCE_NUM : ℕ := 2
def ANNOUNCE_INTERVAL : Duration := .fromSecs 2
def DECLINE_WAIT : Duration := .fromSecs 10

inductive State
  | init
  | selecting
  | requesting
  /-- granted, but the address is still checked for other users -/
  | probing
  | bound
  | renewing
  | rebinding
deriving DecidableEq

/-- When a lease is to be renewed, when rebound, and when it is gone. -/
structure LeaseTimers where
  t1 : Instant
  t2 : Instant
  expiry : Instant
deriving DecidableEq

structure IpPrefix where
  addr : Ipv4Addr
  bits : ℕ
deriving DecidableEq

def IpPrefix.new (addr : Ipv4Addr) (bits : ℕ) : IpPrefix := ⟨addr, min bits 32⟩

/-- The fields of a message that the client reads. -/
structure Message where
  op : ℕ
  xid : UInt32
  chaddr : MacAddr
  yiaddr : Ipv4Addr := 0
  msgType : ℕ
  subnetMask : Option Ipv4Addr := none
  serverId : Option Ipv4Addr := none
  router : Option Ipv4Addr := none
  leaseTime : Option UInt32 := none
  renewalTime : Option UInt32 := none
  rebindingTime : Option UInt32 := none

/-- How many ones a mask starts with. -/
def maskBits (mask : Ipv4Addr) : ℕ := ((List.range 32).takeWhile mask.getMsbD).length

structure Draws where
  xid : UInt32 := 0
  jitter : UInt32 := 0
  t1 : UInt32 := 0
  t2 : UInt32 := 0

inductive Out
  | discover (xid : UInt32)
  /-- REQUEST for an offered address -/
  | select (xid : UInt32) (ip : Ipv4Addr) (server : Option Ipv4Addr)
  | renew (xid : UInt32) (ip server : Ipv4Addr)
  | rebind (xid : UInt32) (ip : Ipv4Addr)
  /-- `check` is set on the first probe of a check -/
  | probe (ip : Ipv4Addr) (check : Option ℕ)
  | announce (ip : Ipv4Addr)
  | release (xid : UInt32) (ip server : Ipv4Addr)
  | decline (xid : UInt32) (ip : Ipv4Addr) (server : Option Ipv4Addr)
deriving DecidableEq

inductive Event
  | bound (pfx : IpPrefix) (router : Option Ipv4Addr)
  | lost
deriving DecidableEq

inductive Call
  | event (e : Event)
  | out (o : Out)
  | endProbe
deriving DecidableEq

structure Inner where
  state : State := .init
  xid : UInt32 := 0
  offeredIp : Option Ipv4Addr := none
  serverIp : Option Ipv4Addr := none
  /-- none for a lease without end, or before one is bound -/
  lease : Option LeaseTimers := none
  nextTx : Option Instant := none
  tries : ℕ := 0
  /-- what to bind once the address proves free -/
  pending : Option (IpPrefix × Option Ipv4Addr × Option LeaseTimers) := none
  probeCheck : ℕ := 0
  probeLive : Bool := false
  requestedAt : Option Instant := none
  announce : Option (ℕ × Instant) := none
  run : ℕ := 0

/-- The state after a transition, with what it tells and what it sends. -/
structure Outcome where
  inner : Inner
  event : Option Event := none
  out : Option Out := none

/-- Whether an OFFER or an ACK names a unicast address and a lease time other than zero. -/
def grantsALease (p : Message) : Bool :=
  let first := p.yiaddr.toNat / 2 ^ 24
  let unicast := !(p.yiaddr == 0 || p.yiaddr == 0xFFFFFFFF || (decide (224 ≤ first) && decide (first < 240))
    || first == 127 || first == 0 || decide (240 ≤ first))
  unicast && p.leaseTime.any (· != 0)

/-- A time with up to a second added or taken off. -/
def fuzz (d : Duration) (draw : UInt32) : Duration :=
  d + .fromMillis (draw.toNat % 2001) - .fromSecs 1

def leaseTimers (start : Instant) (secs : UInt32) (t1 t2 : Option UInt32) (d : Draws) : Option LeaseTimers :=
  if secs = 0xFFFFFFFF then none
  else
    let lease : Duration := .fromSecs secs.toNat
    let t2' := ((t2.map fun s => Duration.fromSecs s.toNat).filter (· < lease)).getD (lease * 7 / 8)
    let t1' := ((t1.map fun s => Duration.fromSecs s.toNat).filter (· < t2')).getD (min (lease / 2) t2')
    let expiry := start + lease
    let t2 := min (start + fuzz t2' d.t2) expiry
    let t1 := min (start + fuzz t1' d.t1) t2
    some ⟨t1, t2, expiry⟩

/-- The wait before the next DISCOVER or REQUEST after `tries` repeats. -/
def backoff (tries : ℕ) (draw : UInt32) : Duration :=
  min (FIRST_RETRANSMIT * 2 ^ min tries 4) MAX_RETRANSMIT - .fromSecs 1 + .fromMillis (draw.toNat % 2001)

/-- Half the time to the deadline, but at least a minute. -/
def renewWait (deadline now : Instant) : Duration := max ((deadline - now) / 2) MIN_RENEW_RETRANSMIT

def due (t : Option Instant) (now : Instant) : Bool := t.any fun t => decide (t ≤ now)

namespace Inner

/-- Start over: a fresh transaction, with a DISCOVER. -/
def restart (i : Inner) (now : Instant) (d : Draws) : Inner × Out :=
  ({ i with
      state := .selecting, xid := d.xid, offeredIp := none, serverIp := none, lease := none, pending := none
      announce := none, tries := 0, nextTx := some (now + backoff 0 d.jitter) }, .discover d.xid)

def bind (i : Inner) (pfx : IpPrefix) (router : Option Ipv4Addr) (lease : Option LeaseTimers) : Inner × Event :=
  ({ i with state := .bound, nextTx := none, pending := none, announce := none, lease := lease },
    .bound pfx router)

def stepProbing (i : Inner) (now : Instant) (conflict : Bool) (d : Draws) : Outcome :=
  match i.offeredIp with
  | none => ⟨(i.restart now d).1, none, some (i.restart now d).2⟩
  | some ip =>
    if conflict then
      ⟨{ (i.restart now d).1 with nextTx := some (now + DECLINE_WAIT) }, none, some (.decline i.xid ip i.serverIp)⟩
    else if !due i.nextTx now then ⟨i, none, none⟩
    else if i.tries < PROBE_NUM then
      let wait := if i.tries + 1 = PROBE_NUM then ANNOUNCE_WAIT else PROBE_INTERVAL
      ⟨{ i with tries := i.tries + 1, nextTx := some (now + wait) }, none, some (.probe ip none)⟩
    else
      match i.pending with
      | none => ⟨(i.restart now d).1, none, some (i.restart now d).2⟩
      | some (pfx, router, lease) =>
        let b := i.bind pfx router lease
        ⟨{ b.1 with announce := some (ANNOUNCE_NUM - 1, now + ANNOUNCE_INTERVAL) }, some b.2, some (.announce ip)⟩

def stepSelecting (i : Inner) (now : Instant) (d : Draws) : Outcome :=
  if !due i.nextTx now then ⟨i, none, none⟩
  else
    ⟨{ i with tries := i.tries + 1, nextTx := some (now + backoff (i.tries + 1) d.jitter) }, none,
      some (.discover i.xid)⟩

def stepRequesting (i : Inner) (now : Instant) (d : Draws) : Outcome :=
  if !due i.nextTx now then ⟨i, none, none⟩
  else if i.tries + 1 ≥ MAX_REQUESTS then ⟨(i.restart now d).1, none, some (i.restart now d).2⟩
  else
    let i := { i with tries := i.tries + 1, nextTx := some (now + backoff (i.tries + 1) d.jitter) }
    match i.offeredIp with
    | none => ⟨(i.restart now d).1, none, some (i.restart now d).2⟩
    | some ip => ⟨i, none, some (.select i.xid ip i.serverIp)⟩

/-- Go to REBINDING: out of BOUND in a new transaction, out of RENEWING in the one it has. -/
def beginRebind (i : Inner) (now : Instant) (d : Draws) : Inner :=
  if i.state = .rebinding then i
  else
    let i := if i.state = .bound then { i with xid := d.xid, requestedAt := some now } else i
    { i with state := .rebinding, nextTx := some now }

def beginRenew (i : Inner) (now : Instant) (d : Draws) : Inner :=
  if i.state = .bound then { i with state := .renewing, xid := d.xid, requestedAt := some now, nextTx := some now }
  else i

/-- Renew, rebind or give up the lease held. -/
def stepLease (i : Inner) (now : Instant) (d : Draws) : Outcome :=
  match i.lease, i.offeredIp with
  | some lease, some ip =>
    if lease.expiry ≤ now then ⟨(i.restart now d).1, some .lost, some (i.restart now d).2⟩
    else if lease.t2 ≤ now ∨ lease.t1 ≤ now ∧ i.serverIp = none then
      let i := i.beginRebind now d
      if !due i.nextTx now then ⟨i, none, none⟩
      else ⟨{ i with nextTx := some (now + renewWait lease.expiry now) }, none, some (.rebind i.xid ip)⟩
    else if lease.t1 ≤ now then
      let i := i.beginRenew now d
      if !due i.nextTx now then ⟨i, none, none⟩
      else
        ⟨{ i with nextTx := some (now + renewWait lease.t2 now) }, none,
          some (.renew i.xid ip (i.serverIp.getD 0xFFFFFFFF))⟩
    else ⟨i, none, none⟩
  | _, _ => ⟨i, none, none⟩

/-- With a lease held: a due announcement goes before everything else. -/
def stepHeld (i : Inner) (now : Instant) (d : Draws) : Outcome :=
  match i.announce.filter fun a => decide (a.2 ≤ now), i.offeredIp with
  | some (left, _), some ip =>
    ⟨{ i with announce := if left > 1 then some (left - 1, now + ANNOUNCE_INTERVAL) else none }, none,
      some (.announce ip)⟩
  | _, _ => i.stepLease now d

def step (i : Inner) (now : Instant) (conflict : Bool) (d : Draws) : Outcome :=
  match i.state with
  | .init => ⟨i, none, none⟩
  | .probing => i.stepProbing now conflict d
  | .selecting => i.stepSelecting now d
  | .requesting => i.stepRequesting now d
  | .bound | .renewing | .rebinding => i.stepHeld now d

def takeOffer (i : Inner) (p : Message) (now : Instant) (d : Draws) : Outcome :=
  ⟨{ i with
      requestedAt := some now, offeredIp := some p.yiaddr, serverIp := p.serverId, state := .requesting, tries := 0
      nextTx := some (now + backoff 0 d.jitter) }, none, some (.select i.xid p.yiaddr p.serverId)⟩

/-- A DHCPACK in REQUESTING, RENEWING or REBINDING: a new address is checked first, where the transport can. -/
def takeAck (canProbe : Bool) (i : Inner) (p : Message) (now : Instant) (d : Draws) : Outcome :=
  let bits := (p.subnetMask.map maskBits).getD 24
  let pfx := IpPrefix.new p.yiaddr bits
  let lease := leaseTimers (i.requestedAt.getD now) (p.leaseTime.getD 0) p.renewalTime p.rebindingTime d
  let i' := { i with offeredIp := some p.yiaddr, serverIp := p.serverId.or i.serverIp }
  if i.state = .requesting ∧ canProbe then
    ⟨{ i' with
        state := .probing, pending := some (pfx, p.router, lease), tries := 1
        nextTx := some (now + PROBE_INTERVAL), probeCheck := i.probeCheck + 1, probeLive := false }, none,
      some (.probe p.yiaddr (some (i.probeCheck + 1)))⟩
  else ⟨(i'.bind pfx p.router lease).1, some (i'.bind pfx p.router lease).2, none⟩

/-- The transition a reply of this transaction makes, with the server it is taken from if it is a DHCPACK. -/
def takeReply (canProbe : Bool) (i : Inner) (p : Message) (now : Instant) (d : Draws) :
    Outcome × Option Ipv4Addr :=
  if i.state = .renewing ∧ (p.msgType = MSG_ACK ∨ p.msgType = MSG_NAK) ∧ i.serverIp.isSome ∧
    p.serverId ≠ i.serverIp
  then (⟨i, none, none⟩, none)
  else if i.state = .selecting ∧ p.msgType = MSG_OFFER ∧ !grantsALease p then (⟨i, none, none⟩, none)
  else if p.msgType = MSG_ACK ∧ !grantsALease p then (⟨i, none, none⟩, none)
  else if i.state = .selecting ∧ p.msgType = MSG_OFFER then (i.takeOffer p now d, none)
  else if (i.state = .requesting ∨ i.state = .renewing ∨ i.state = .rebinding) ∧ p.msgType = MSG_ACK then
    (i.takeAck canProbe p now d, p.serverId.or i.serverIp)
  else if i.state = .requesting ∧ p.msgType = MSG_NAK then
    (⟨(i.restart now d).1, none, some (i.restart now d).2⟩, none)
  else if (i.state = .renewing ∨ i.state = .rebinding) ∧ p.msgType = MSG_NAK then
    (⟨(i.restart now d).1, some .lost, some (i.restart now d).2⟩, none)
  else (⟨i, none, none⟩, none)

/-- Sending the first probe of a check makes the transport start it. -/
def noteSent (i : Inner) : Call → Inner
  | .out (.probe _ (some check)) =>
    if i.state = .probing ∧ i.probeCheck = check then { i with probeLive := true } else i
  | _ => i

def leftLease (i : Inner) : Bool := i.state = .bound ∨ i.state = .renewing ∨ i.state = .rebinding

/-- Whether an address check is under way. -/
def leftProbe (i : Inner) : Bool := i.state = .probing

end Inner

/-- The client, with the calls not made yet: each with the run it belongs to, none if it is to be made even once
that run is over. -/
structure Shared where
  mac : MacAddr
  canProbe : Bool
  inner : Inner := {}
  queue : List (Option ℕ × Call) := []

/-- Make the queued calls in order, but for those of a run that is over. -/
def deliver : List (Option ℕ × Call) → Inner → Inner × List Call
  | [], i => (i, [])
  | (run, call) :: calls, i =>
    if run.any (· != i.run) then deliver calls i
    else ((deliver calls (i.noteSent call)).1, call :: (deliver calls (i.noteSent call)).2)

namespace Shared

/-- What leaving a state gave up, to be told whatever follows. -/
def queueLeft (i : Inner) : List (Option ℕ × Call) :=
  (if i.leftProbe then [(none, .endProbe)] else []) ++ (if i.leftLease then [(none, .event .lost)] else [])

/-- What a transition produced. A lost lease and a DECLINE are told even once the run is over. -/
def queueStep (r : Outcome) : List (Option ℕ × Call) :=
  (r.event.toList.map Call.event ++ r.out.toList.map Call.out).map fun c =>
    (match c with
      | .event .lost | .out (.decline ..) => none
      | _ => some r.inner.run, c)

/-- Take the new state and its calls, then make all that are queued. -/
def settle (c : Shared) (i : Inner) (calls : List (Option ℕ × Call)) : Shared × List Call :=
  let r := deliver (c.queue ++ calls) i
  ({ c with inner := r.1, queue := [] }, r.2)

/-- Begin, or begin again, with discovery. -/
def start (c : Shared) (now : Instant) (d : Draws) : Shared × List Call :=
  let r := { c.inner with run := c.inner.run + 1 }.restart now d
  c.settle r.1 (queueLeft c.inner ++ [(some r.1.run, .out r.2)])

def halt (c : Shared) (release : Bool) (d : Draws) : Shared × List Call :=
  let i := c.inner
  let out : List (Option ℕ × Call) :=
    match release && i.leftLease, i.offeredIp, i.serverIp with
    | true, some ip, some server => [(none, .out (.release d.xid ip server))]
    | _, _, _ => []
  c.settle
    { i with run := i.run + 1, state := .init, lease := none, pending := none, announce := none, nextTx := none }
    (out ++ queueLeft i)

def handleReply (c : Shared) (p : Message) (now : Instant) (d : Draws) : (Shared × List Call) × Option Ipv4Addr :=
  if p.op ≠ 2 ∨ p.chaddr ≠ c.mac ∨ c.inner.xid ≠ p.xid then ((c, []), none)
  else
    let r := c.inner.takeReply c.canProbe p now d
    (c.settle r.1.inner (queueStep r.1), r.2)

/-- `conflict` is the transport's answer, believed only of a check it has started. -/
def tick (c : Shared) (conflict : Bool) (now : Instant) (d : Draws) : Shared × List Call :=
  let i := c.inner
  let r := i.step now (conflict && i.state = .probing && i.offeredIp.isSome && i.probeLive) d
  c.settle r.inner (queueStep r)

end Shared

inductive Op
  | start
  | stop
  | release
  | reply (p : Message)
  | tick (conflict : Bool)

def Shared.handle (c : Shared) (op : Op) (now : Instant) (d : Draws) : Shared × List Call :=
  match op with
  | .start => c.start now d
  | .stop => c.halt false d
  | .release => c.halt true d
  | .reply p => (c.handleReply p now d).1
  | .tick conflict => c.tick conflict now d

end PktKit.Dhcp.Client
