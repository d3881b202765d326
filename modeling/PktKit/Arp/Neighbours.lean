import PktKit.Arp.Pending

/-! # The neighbour cache

The cache of neighbours' hardware addresses with its unreachability detection. Which of equally good victims a full
cache drops is read from an arbitrary function.
-/

namespace PktKit.Arp
open Foundations Foundations.Runs

abbrev MacAddr := { l : List UInt8 // l.length = 6 }

def DEFAULT_TTL : Duration := .fromSecs (5 * 60)
def MAX_ENTRIES : ℕ := 4096
def LOW_WATER : ℕ := MAX_ENTRIES - MAX_ENTRIES / 8
def REACHABLE_TIME : Duration := .fromSecs 30
def DELAY_FIRST_PROBE_TIME : Duration := .fromSecs 5
def MAX_UNICAST_SOLICIT : ℕ := 3

/-- Neighbour unreachability detection: confirmed until then, not confirmed lately, used while stale and probed from
then on, or probed so many times with the next probe due then. -/
inductive Nud
  | reachable (limit : Instant)
  | stale
  | delay (limit : Instant)
  | probe (sent : ℕ) (next : Instant)

structure Entry where
  mac : MacAddr
  state : Nud
  expires : Instant
  resolved : Bool

inductive Resolved
  | hit (mac : MacAddr)
  | probe (mac : MacAddr)
  | miss

namespace Entry

/-- As good as gone: stale and past its time, or probed and never answered. -/
def gone (e : Entry) (now : Instant) : Bool :=
  match e.state with
  | .stale => decide (e.expires ≤ now)
  | .reachable limit => decide (limit ≤ now ∧ e.expires ≤ now)
  | .delay _ => false
  | .probe sent next => decide (next + RETRANS_TIMER * (MAX_UNICAST_SOLICIT - sent) ≤ now)

def probed (e : Entry) (sent : ℕ) (now : Instant) : Entry := { e with state := .probe sent (now + RETRANS_TIMER) }

def used (e : Entry) (now : Instant) : Entry × Resolved :=
  match e.state with
  | .reachable limit =>
    if now < limit then (e, .hit e.mac)
    else ({ e with state := .delay (now + DELAY_FIRST_PROBE_TIME) }, .hit e.mac)
  | .stale => ({ e with state := .delay (now + DELAY_FIRST_PROBE_TIME) }, .hit e.mac)
  | .delay limit => if now < limit then (e, .hit e.mac) else (e.probed 1 now, .probe e.mac)
  | .probe sent next => if now < next then (e, .hit e.mac) else (e.probed (sent + 1) now, .probe e.mac)

/-- The timers of an entry: what is left of it, and whether to probe it. -/
def timed (e : Entry) (now : Instant) : Option (Entry × Bool) :=
  let kept (e : Entry) (probe : Bool) : Option (Entry × Bool) := if e.gone now then none else some (e, probe)
  match e.state with
  | .delay limit => if limit ≤ now then kept (e.probed 1 now) true else kept e false
  | .probe sent next =>
    if e.gone now then none else if next ≤ now then kept (e.probed (sent + 1) now) true else kept e false
  | _ => kept e false

def updated (e : Entry) (mac : MacAddr) (solicited override : Bool) (now : Instant) : Entry :=
  if e.mac ≠ mac ∧ override = false then
    match e.state with
    | .reachable limit => if now < limit then { e with state := .stale } else e
    | _ => e
  else
    { mac := mac
      state := if solicited ∨ e.mac ≠ mac then (if solicited then .reachable (now + REACHABLE_TIME) else .stale)
        else e.state
      expires := now + DEFAULT_TTL
      resolved := e.resolved || solicited }

def learnt (mac : MacAddr) (solicited : Bool) (now : Instant) : Entry where
  mac := mac
  state := if solicited then .reachable (now + REACHABLE_TIME) else .stale
  expires := now + DEFAULT_TTL
  resolved := solicited

end Entry

structure Cache (K : Type) where
  map : Table K Entry := ∅
  pinned : Option K := none

namespace Cache

variable {K : Type} [DecidableEq K]

def pin (c : Cache K) (ip : Option K) : Cache K := { c with pinned := ip }

def lookup (c : Cache K) (ip : K) (now : Instant) : Cache K × Option MacAddr :=
  match c.map.lookup ip with
  | some e => if e.gone now then ({ c with map := c.map.erase ip }, none) else (c, some e.mac)
  | none => (c, none)

/-- The MAC to send a packet to, and whether to probe it. -/
def resolveAt (c : Cache K) (ip : K) (now : Instant) : Cache K × Resolved :=
  match c.map.lookup ip with
  | none => (c, .miss)
  | some e =>
    if e.gone now then ({ c with map := c.map.erase ip }, .miss)
    else ({ c with map := c.map.insert ip (e.used now).1 }, (e.used now).2)

/-- Run the timers: the neighbours to probe now. -/
def poll (c : Cache K) (now : Instant) : Cache K × List (K × MacAddr) :=
  ({ c with map := (c.map.retain fun _ e => (e.timed now).isSome).mapValues fun e => ((e.timed now).map Prod.fst).getD e },
    c.map.entries.filterMap fun e => if (e.2.timed now).any Prod.snd then some (e.1, e.2.mac) else none)

/-- The order in which entries are given up: those learnt unasked first, then by their expiry. -/
def rank (order : K → ℕ) (e : Sigma fun _ : K => Entry) : Bool ×ₗ Instant ×ₗ ℕ :=
  toLex (e.2.resolved, toLex (e.2.expires, order e.1))

/-- Cut a full cache back, never by the pinned entry. -/
def makeRoom (c : Cache K) (order : K → ℕ) (now : Instant) : Cache K :=
  let map := c.map.retain fun _ e => !e.gone now
  let excess := map.entries.length - LOW_WATER
  let victims := map.entries.filter fun e => some e.1 ≠ c.pinned
  let chosen := (victims.mergeSort fun a b => rank order a ≤ rank order b).take (min excess victims.length)
  { c with map := map.retain fun k _ => decide (k ∉ chosen.map Sigma.fst) }

def updateAt (c : Cache K) (order : K → ℕ) (ip : K) (mac : MacAddr) (solicited override : Bool) (now : Instant) :
    Cache K :=
  let learn (c : Cache K) : Cache K := { c with map := c.map.insert ip (.learnt mac solicited now) }
  match c.map.lookup ip with
  | some e =>
    if e.gone now then learn c
    else { c with map := c.map.insert ip (e.updated mac solicited override now) }
  | none => learn (if MAX_ENTRIES ≤ c.map.entries.length then c.makeRoom order now else c)

end Cache

end PktKit.Arp
