import PktKit.Dhcp.Leases

/-! # The DHCP server

What a request does to the leases, and how it is answered. The clock is read once for each request.
-/

namespace PktKit.Dhcp
open Foundations

def MAX_LEASES : ℕ := 1024
def OFFER_HOLD : Duration := .fromSecs 60
def PROVISIONAL_LEASE : Duration := OFFER_HOLD
def PROVISIONAL_MIN_AGE : Duration := .fromSecs 30

def MSG_DISCOVER : ℕ := 1
def MSG_REQUEST : ℕ := 3
def MSG_DECLINE : ℕ := 4
def MSG_RELEASE : ℕ := 7
def MSG_INFORM : ℕ := 8

structure ServerConfig where
  serverIp : Ipv4Addr
  subnetMask : Ipv4Addr
  rangeStart : Ipv4Addr
  rangeEnd : Ipv4Addr
  router : Option Ipv4Addr := none
  leaseTime : Duration := .fromSecs 3600
  staticLeases : Table MacAddr Ipv4Addr := ∅
  verifyChaddr : Bool := true
  maxLeasesPerMac : Option ℕ := some 4

structure Parsed where
  op : ℕ
  ciaddr : Ipv4Addr := 0
  giaddr : Ipv4Addr := 0
  htype : ℕ
  hlen : ℕ
  chaddrField : { l : List UInt8 // l.length = 16 }
  msgType : ℕ
  serverId : Option Ipv4Addr := none
  requestedIp : Option Ipv4Addr := none
  clientId : Option (List UInt8) := none

/-- The first six bytes of the hardware address field. -/
def Parsed.chaddr (p : Parsed) : MacAddr := ⟨p.chaddrField.val.take 6, by
    rw [List.length_take, p.chaddrField.property]; rfl⟩

def ClientKey.of (p : Parsed) : Option ClientKey :=
  match p.clientId with
  | some bytes => some (.id bytes)
  | none => if p.hlen ≤ 16 then some (.hw p.htype (p.chaddrField.val.take p.hlen)) else none

/-- A client's MAC, if it is on Ethernet, and the address reserved for it. -/
structure Reservation where
  mac : Option MacAddr
  ip : Option Ipv4Addr

inductive Answer
  | ack (ip : Ipv4Addr) (secs : ℕ)
  | nak
  | silent

inductive Reply
  | offer (ip : Ipv4Addr) (secs : ℕ)
  | ack (ip : Ipv4Addr) (secs : ℕ)
  /-- the answer to an INFORM, which gives no address -/
  | inform
  | nak
deriving DecidableEq

namespace ServerConfig

variable (cfg : ServerConfig)

def onOurSubnet (ip : Ipv4Addr) : Bool := ip &&& cfg.subnetMask = cfg.serverIp &&& cfg.subnetMask

/-- How many bits are set from the top. -/
def leadingOnes (mask : Ipv4Addr) : ℕ := ((List.range 32).takeWhile fun i => mask.getMsbD i).length

def inPool (ip : Ipv4Addr) : Bool :=
  if ip.toNat < cfg.rangeStart.toNat || ip.toNat > cfg.rangeEnd.toNat then false
  else if !cfg.onOurSubnet ip then false
  else if ip = cfg.serverIp || some ip = cfg.router then false
  else
    let net := cfg.serverIp &&& cfg.subnetMask
    !(leadingOnes cfg.subnetMask < 31 && (ip = net || ip = net ||| ~~~cfg.subnetMask))

def poolSize : ℕ :=
  let net := cfg.serverIp &&& cfg.subnetMask
  let last := net ||| ~~~cfg.subnetMask
  let lo := max cfg.rangeStart.toNat net.toNat
  let hi := min cfg.rangeEnd.toNat last.toNat
  if lo > hi then 0
  else
    let taken := [cfg.serverIp] ++ cfg.router.toList ++ (if leadingOnes cfg.subnetMask < 31 then
      [net, last] else [])
    hi - lo + 1 - (taken.dedup.filter fun a => lo ≤ a.toNat && a.toNat ≤ hi).length

def capacity : ℕ := min cfg.poolSize MAX_LEASES

def reserved (ip : Ipv4Addr) : List MacAddr :=
  (cfg.staticLeases.entries.filter fun e => e.2 = ip).map fun e => e.1

def leaseSecs : ℕ := min (cfg.leaseTime / Duration.fromSecs 1) (2 ^ 32 - 1)

def leaseEnd (now : Instant) : Instant := now + cfg.leaseTime

def reservation (p : Parsed) : Reservation :=
  let mac := if p.htype = 1 ∧ p.hlen = 6 then some p.chaddr else none
  { mac, ip := mac.bind cfg.staticLeases.lookup }

end ServerConfig

structure Server where
  cfg : ServerConfig
  leases : Leases := {}
  declined : Table Ipv4Addr Instant := ∅

namespace Server

def liveLeases (s : Server) (now : Instant) : Server :=
  { s with leases := s.leases.expire now, declined := s.declined.retain fun _ exp => decide (now < exp) }

/-- Another client holds the address or has it reserved. -/
def heldByOthers (s : Server) (key : ClientKey) (res : Reservation) (ip : Ipv4Addr) : Bool :=
  s.leases.heldByOther ip key || (s.cfg.reserved ip).any fun m => some m ≠ res.mac

def overSrcCap (s : Server) (src : Option MacAddr) : Bool :=
  match s.cfg.maxLeasesPerMac, src with
  | some cap, some src => decide (cap ≤ s.leases.heldFrom src)
  | _, _ => false

def insertLease (s : Server) (key : ClientKey) (lease : Lease) : Server :=
  { s with leases := s.leases.insert key lease }

def removeLease (s : Server) (key : ClientKey) : Server := { s with leases := s.leases.remove key }

/-- The first address of the range that is free for a client. -/
def pick (s : Server) (key : ClientKey) (res : Reservation) : Option Ipv4Addr :=
  ((List.range' s.cfg.rangeStart.toNat (s.cfg.rangeEnd.toNat + 1 - s.cfg.rangeStart.toNat)).map
    (BitVec.ofNat 32)).find?
    fun ip => s.cfg.inPool ip && !s.heldByOthers key res ip && !(s.declined.lookup ip).isSome

/-- Offer a new address, held for a short while. -/
def allocateNew (s : Server) (key : ClientKey) (res : Reservation) (src : Option MacAddr) (now : Instant) :
    Server × Option Ipv4Addr :=
  if MAX_LEASES ≤ s.leases.byKey.entries.length || s.overSrcCap src then (s, none)
  else match s.pick key res with
    | none => (s, none)
    | some ip => (s.insertLease key ⟨ip, now + OFFER_HOLD, false, none, src⟩, some ip)

def allocate (s : Server) (key : ClientKey) (res : Reservation) (src : Option MacAddr) (now : Instant) :
    Server × Option Ipv4Addr :=
  match res.ip with
  | some ip => (s, if s.cfg.onOurSubnet ip then some ip else none)
  | none =>
    let s := s.liveLeases now
    match s.leases.byKey.lookup key with
    | none => s.allocateNew key res src now
    | some l =>
      if !s.heldByOthers key res l.ip then
        (if l.bound then s else s.insertLease key { l with expiry := now + OFFER_HOLD }, some l.ip)
      else (s.removeLease key).allocateNew key res src now

def commitUnknown (s : Server) (key : ClientKey) (src : Option MacAddr) (ip : Ipv4Addr) (held renewing : Bool)
    (now : Instant) : Server × Answer :=
  let provisional := min s.cfg.leaseTime PROVISIONAL_LEASE
  if !s.cfg.inPool ip then (s, .silent)
  else if held then (s, .nak)
  else if (s.declined.lookup ip).isSome && !renewing then (s, .nak)
  else
    let s := { s with declined := s.declined.erase ip }
    if s.cfg.capacity * 3 ≤ s.leases.byKey.entries.length * 4 || s.overSrcCap src then (s, .silent)
    else (s.insertLease key ⟨ip, now + provisional, true, some now, src⟩,
      .ack ip (provisional / Duration.fromSecs 1))

def commit (s : Server) (key : ClientKey) (res : Reservation) (src : Option MacAddr) (ip : Ipv4Addr)
    (renewing : Bool)
    (now : Instant) : Server × Answer :=
  let lease : Lease := ⟨ip, s.cfg.leaseEnd now, true, none, src⟩
  if !s.cfg.onOurSubnet ip then (s, .nak)
  else match res.ip with
    | some staticIp => if ip ≠ staticIp then (s, .nak) else (s.insertLease key lease, .ack ip s.cfg.leaseSecs)
    | none =>
      let held := s.heldByOthers key res ip
      match s.leases.byKey.lookup key with
      | none => s.commitUnknown key src ip held renewing now
      | some l =>
        if l.ip = ip && !held then
          match l.provisional with
          | some since =>
            if renewing && decide (PROVISIONAL_MIN_AGE ≤ now - since) then
              (s.insertLease key lease, .ack ip s.cfg.leaseSecs)
            else
              let provisional := min s.cfg.leaseTime PROVISIONAL_LEASE
              (s.insertLease key { l with expiry := now + provisional },
                .ack ip (provisional / Duration.fromSecs 1))
          | none => (s.insertLease key lease, .ack ip s.cfg.leaseSecs)
        else if l.bound then (s, .nak)
        else (s.removeLease key).commitUnknown key src ip held renewing now

def request (s : Server) (p : Parsed) (key : ClientKey) (src : Option MacAddr) (now : Instant) : Server × Answer :=
  let s := s.liveLeases now
  let res := s.cfg.reservation p
  let offer := (s.leases.byKey.lookup key).filter fun l => !l.bound
  match p.serverId, p.requestedIp with
  | some sid, requested =>
    if sid ≠ s.cfg.serverIp then (if offer.isSome then s.removeLease key else s, .silent)
    else match requested with
      | some ip =>
        if offer.any fun l => decide (l.ip ≠ ip) then (s.removeLease key, .nak)
        else s.commit key res src ip false now
      | none => (s, .silent)
  | none, some ip => s.commit key res src ip false now
  | none, none => if p.ciaddr ≠ 0 then s.commit key res src p.ciaddr true now else (s, .silent)

def release (s : Server) (p : Parsed) (key : ClientKey) : Server :=
  if p.serverId ≠ some s.cfg.serverIp then s
  else if (s.leases.byKey.lookup key).any fun l => decide (l.ip = p.ciaddr) then s.removeLease key
  else s

def decline (s : Server) (p : Parsed) (key : ClientKey) (now : Instant) : Server :=
  if p.serverId ≠ some s.cfg.serverIp then s
  else match p.requestedIp with
    | none => s
    | some ip =>
      let s := s.liveLeases now
      let ours := ((s.leases.byKey.lookup key).any fun l => decide (l.ip = ip))
        || (s.cfg.reservation p).ip = some ip
      if !ours then s
      else
        let s := s.removeLease key
        if MAX_LEASES ≤ s.declined.entries.length && !(s.declined.lookup ip).isSome then s
        else { s with declined := s.declined.insert ip (s.cfg.leaseEnd now) }

/-- The station that sent a request from the local segment, unless it is not to be believed. -/
def station (s : Server) (p : Parsed) (source : Option MacAddr) : Option (Option MacAddr) :=
  let src := if p.giaddr = 0 then source else none
  if s.cfg.verifyChaddr && p.htype = 1 && p.hlen = 6 && src.any fun m => decide (p.chaddr ≠ m) then
    none else some src

/-- Whether a message is looked at: who it is from, as the key of a lease and as a station. -/
def admits (s : Server) (p : Parsed) (source : Option MacAddr) : Option (ClientKey × Option MacAddr) :=
  if p.op ≠ 1 then none
  else (ClientKey.of p).bind fun key =>
    if p.giaddr ≠ 0 ∧ !s.cfg.onOurSubnet p.giaddr then none
    else (s.station p source).map fun src => (key, src)

def serve (s : Server) (p : Parsed) (key : ClientKey) (src : Option MacAddr) (now : Instant) :
    Server × Option Reply :=
  if p.msgType = MSG_DISCOVER then
    let (s', ip) := s.allocate key (s.cfg.reservation p) src now
    (s', ip.map fun ip => .offer ip s.cfg.leaseSecs)
  else if p.msgType = MSG_REQUEST then
    match s.request p key src now with
    | (s', .ack ip secs) => (s', some (.ack ip secs))
    | (s', .nak) => (s', some .nak)
    | (s', .silent) => (s', none)
  else if p.msgType = MSG_RELEASE then (s.release p key, none)
  else if p.msgType = MSG_DECLINE then (s.decline p key now, none)
  else if p.msgType = MSG_INFORM then (s, some .inform)
  else (s, none)

def handle (s : Server) (p : Parsed) (source : Option MacAddr) (now : Instant) : Server × Option Reply :=
  match s.admits p source with
  | none => (s, none)
  | some (key, src) => s.serve p key src now

end Server

end PktKit.Dhcp
