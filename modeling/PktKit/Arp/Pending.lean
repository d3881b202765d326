import PktKit.Foundations.Maxima
import PktKit.Foundations.Runs
import PktKit.Foundations.Tables
import PktKit.Time

/-! # Packets awaiting address resolution

The queues of packets for targets being resolved, their caps and the solicitations asked for. A byte count that would
go below zero stops the operation, and what a hash map's order decides is read from an arbitrary function.
-/

namespace PktKit.Arp
open Foundations Foundations.Runs

abbrev Bytes := List UInt8

def RETRANS_TIMER : Duration := .fromSecs 1
def MAX_MULTICAST_SOLICIT : ℕ := 3
def PENDING_MAX_PKTS : ℕ := 16
def PENDING_MAX_TARGETS : ℕ := 256
@[irreducible] def PENDING_MAX_BYTES : ℕ := 2 ^ 20

structure PendingEntry where
  packets : List Bytes
  sent : ℕ
  next : Instant

namespace PendingEntry

/-- Whether the resolution has run its course and is only waiting for `poll` to report the failure. -/
def failed (e : PendingEntry) (now : Instant) : Bool := decide (MAX_MULTICAST_SOLICIT ≤ e.sent ∧ e.next ≤ now)

def size (e : PendingEntry) : ℕ := (e.packets.map List.length).sum

/-- Whether the timers leave the resolution going. -/
def staysAt (e : PendingEntry) (now : Instant) : Bool := decide (now < e.next ∨ e.sent < MAX_MULTICAST_SOLICIT)

def timedAt (e : PendingEntry) (now : Instant) : PendingEntry :=
  if now < e.next then e else { e with sent := e.sent + 1, next := now + RETRANS_TIMER }

/-- The order in which targets are given up: those solicited most and due first. -/
def nearness (e : PendingEntry) : ℕ ×ₗ ℕᵒᵈ := toLex (e.sent, OrderDual.toDual e.next)

end PendingEntry

structure Queues (K : Type) where
  map : Table K PendingEntry := ∅
  bytes : ℕ := 0
  pinned : Option K := none

/-- What `poll` found due. -/
inductive PendingEvent (K : Type)
  | resolicit (ip : K)
  | failed (ip : K) (packets : List Bytes)

def choose {α : Type*} (n : ℕ) (l : List α) : Option α := l[n % l.length]?

namespace Queues

variable {K : Type} [DecidableEq K]

def free (q : Queues K) (n : ℕ) : Option (Queues K) :=
  if n ≤ q.bytes then some { q with bytes := q.bytes - n } else none

def remove (q : Queues K) (ip : K) : Option (Queues K × Option PendingEntry) :=
  match q.map.lookup ip with
  | none => some (q, none)
  | some e => ({ q with map := q.map.erase ip }.free e.size).map (·, some e)

def dropOldest (q : Queues K) (ip : K) : Option (Queues K) :=
  match q.map.lookup ip with
  | some ⟨p :: packets, sent, next⟩ =>
    { q with map := q.map.insert ip ⟨packets, sent, next⟩ }.free p.length
  | _ => none

/-- Drop the oldest packet of some queue other than `keep`'s, and the queue with it if that was its last. False if there
is none. -/
def shedOther (q : Queues K) (order : Queues K → ℕ) (keep : K) : Option (Queues K × Bool) :=
  match choose (order q) (q.map.entries.filter fun e => e.1 ≠ keep ∧ e.2.packets ≠ []) with
  | none => some (q, false)
  | some ⟨k, e⟩ => (q.dropOldest k).map fun q =>
    (if e.packets.tail = [] then { q with map := q.map.erase k } else q, true)

/-- A resolution that failed but was never polled starts over. -/
def startOver (q : Queues K) (ip : K) (now : Instant) : Option (Queues K) :=
  if (q.map.lookup ip).any (·.failed now) then (q.remove ip).map (·.1) else some q

def clearFailed (q : Queues K) (now : Instant) : Option (Queues K) :=
  { q with map := q.map.retain fun _ e => !e.failed now }.free
    ((q.map.retain fun _ e => !(!e.failed now)).total PendingEntry.size)

def giveUp (q : Queues K) (order : Queues K → ℕ) : Option (Queues K) :=
  match choose (order q) (maxima (fun e => e.2.nearness) q.map.entries) with
  | none => some q
  | some v => (q.remove v.1).map (·.1)

/-- An empty queue for a new target, unless there are too many targets. -/
def addTarget (q : Queues K) (order : Queues K → ℕ) (ip : K) (now : Instant) : Option (Queues K × Bool) :=
  let entry : PendingEntry := ⟨[], 1, now + RETRANS_TIMER⟩
  (if PENDING_MAX_TARGETS ≤ q.map.entries.length then q.clearFailed now else some q).bind fun q =>
  if PENDING_MAX_TARGETS ≤ q.map.entries.length then
    if q.pinned = some ip then (q.giveUp order).map fun q => ({ q with map := q.map.insert ip entry }, true)
    else some (q, false)
  else some ({ q with map := q.map.insert ip entry }, true)

/-- A full queue makes room by dropping its oldest packet. -/
def trim (q : Queues K) (ip : K) : Option (Queues K) :=
  (q.map.lookup ip).bind fun e => if PENDING_MAX_PKTS ≤ e.packets.length then q.dropOldest ip else some q

/-- Make room for `len` bytes: for the router at the cost of the others, else of the queue itself. False if there is
nothing more to drop. -/
def makeRoom (order : Queues K → ℕ) (ip : K) (len : ℕ) : ℕ → Queues K → Option (Queues K × Bool)
  | 0, _ => none
  | fuel + 1, q =>
    if q.bytes + len ≤ PENDING_MAX_BYTES then some (q, true)
    else (if q.pinned = some ip then q.shedOther order ip else some (q, false)).bind fun r =>
      if r.2 then makeRoom order ip len fuel r.1
      else (r.1.map.lookup ip).bind fun e =>
        if e.packets = [] then some ({ r.1 with map := r.1.map.erase ip }, false)
        else (r.1.dropOldest ip).bind (makeRoom order ip len fuel)

def waiting (q : Queues K) : ℕ := q.map.total fun e => e.packets.length

/-- Add the packet. True if a solicitation is to be sent. -/
def push (q : Queues K) (ip : K) (pkt : Bytes) (fresh : Bool) (now : Instant) : Option (Queues K × Bool) :=
  (q.map.lookup ip).map fun e =>
    let due := !fresh && decide (e.next ≤ now)
    let e := { e with packets := e.packets ++ [pkt] }
    let e := if due then { e with sent := e.sent + 1, next := now + RETRANS_TIMER } else e
    ({ q with map := q.map.insert ip e, bytes := q.bytes + pkt.length }, fresh || due)

/-- The room for a packet: what its own queue may free, or for the router any. -/
def room (q : Queues K) (ip : K) : Option ℕ :=
  let own := (q.map.lookup ip).elim 0 PendingEntry.size
  if q.pinned = some ip then some PENDING_MAX_BYTES
  else if own ≤ q.bytes ∧ q.bytes - own ≤ PENDING_MAX_BYTES then some (PENDING_MAX_BYTES - (q.bytes - own))
  else none

/-- Queue a packet, with what there is room for known. `none` if it is refused, else whether to solicit. -/
def enqueueWithin (q : Queues K) (order : Queues K → ℕ) (ip : K) (pkt : Bytes) (now : Instant) :
    Option (Queues K × Option Bool) :=
  (q.startOver ip now).bind fun q =>
  let fresh := (q.map.lookup ip).isNone
  (if fresh then q.addTarget order ip now else some (q, true)).bind fun r =>
  if r.2 = false then some (r.1, none)
  else (r.1.trim ip).bind fun q =>
    (makeRoom order ip pkt.length (q.waiting + 1) q).bind fun r =>
    if r.2 = false then some (r.1, none) else (r.1.push ip pkt fresh now).map fun r => (r.1, some r.2)

/-- Buffer `pkt` for `ip`. `none` if it is refused, else whether the caller should send a solicitation now. -/
def enqueueAt (q : Queues K) (order : Queues K → ℕ) (ip : K) (pkt : Bytes) (now : Instant) :
    Option (Queues K × Option Bool) :=
  if PENDING_MAX_BYTES < pkt.length then some (q, none)
  else (q.room ip).bind fun room =>
    if room < pkt.length then some (q, none) else q.enqueueWithin order ip pkt now

/-- What the timers do to a queue: solicit again, or report it failed. -/
def due (now : Instant) : (Sigma fun _ : K => PendingEntry) → Option (PendingEvent K)
  | ⟨ip, e⟩ =>
    if now < e.next then none
    else if e.sent < MAX_MULTICAST_SOLICIT then some (.resolicit ip)
    else some (.failed ip e.packets)

def poll (q : Queues K) (now : Instant) : Option (Queues K × List (PendingEvent K)) :=
  ({ q with map := (q.map.retain fun _ e => e.staysAt now).mapValues fun e => e.timedAt now }.free
    ((q.map.retain fun _ e => !e.staysAt now).total PendingEntry.size)).map (·, q.map.entries.filterMap (due now))

def clear (q : Queues K) : Queues K := { q with map := ∅, bytes := 0 }

/-- Keep only the queued packets `keep` accepts; a queue left empty is dropped. -/
def retainPackets (q : Queues K) (keep : K → ℕ → Bytes → Bool) : Queues K :=
  let kept (ip : K) (packets : List Bytes) : List Bytes :=
    (packets.zipIdx.filter fun p => keep ip p.2 p.1).map Prod.fst
  let map := (q.map.mapEntries fun ip e => { e with packets := kept ip e.packets }).retain fun _ e =>
    !e.packets.isEmpty
  { q with map := map, bytes := map.total PendingEntry.size }

def drain (q : Queues K) (ip : K) : Option (Queues K × List Bytes) :=
  (q.remove ip).map fun r => (r.1, r.2.elim [] (·.packets))

end Queues

end PktKit.Arp
