import PktKit.Foundations.OrdSets
import PktKit.Vtcp.Rate
import PktKit.Vtcp.RecvBuf

/-! # The sender's scoreboard

Every segment sent and not yet cumulatively acknowledged, whether the receiver has
SACKed it, whether it is deemed lost, and when it was last sent. Inside,
positions are offsets into the stream, which do not wrap. An index past the last
segment, which no caller passes, leaves the scoreboard as it is.
-/

namespace PktKit.Vtcp
open Foundations.OrdSets

def DUP_THRESH : ℕ := 3
def MIN_RTT_WINDOW : ℕ := 300000000000
def REO_WND_PERSIST : ℕ := 16
def SPLIT_SLACK : ℕ := 64

/-- A segment, as last sent, its flags one by one. The pieces of a split segment share `tx`. -/
structure Seg where
  start : ℕ
  /-- the source's `end` -/
  stop : ℕ
  xmit : ℕ
  tsval : Seq
  tx : ℕ
  sacked : Bool
  lost : Bool
  retrans : Bool
  fin : Bool
  rate : TxState
deriving DecidableEq, Repr, Inhabited

def Seg.len (s : Seg) : ℕ := s.stop - s.start

def Seg.inFlight (s : Seg) : Bool := !s.sacked && !s.lost

/-- A transmission, queued in the order they happened. -/
structure TxRec where
  start : ℕ
  stop : ℕ
  xmit : ℕ
  tx : ℕ
deriving DecidableEq, Repr

/-- The best of three samples spread over a window. -/
structure WindowedMin where
  s0 : ℕ × ℕ := (0, 0)
  s1 : ℕ × ℕ := (0, 0)
  s2 : ℕ × ℕ := (0, 0)
  set : Bool := false
deriving DecidableEq, Repr

namespace WindowedMin

def update (m : WindowedMin) (win t v : ℕ) : WindowedMin :=
  let val := (t, v)
  if !m.set || v ≤ m.s0.2 || win < t - m.s2.1 then { s0 := val, s1 := val, s2 := val, set := true }
  else
    let m :=
      if v ≤ m.s1.2 then { m with s1 := val, s2 := val }
      else if v ≤ m.s2.2 then { m with s2 := val }
      else m
    let dt := t - m.s0.1
    if win < dt then
      let m := { m with s0 := m.s1, s1 := m.s2, s2 := val }
      if win < t - m.s0.1 then { m with s0 := m.s1, s1 := m.s2, s2 := val } else m
    else if m.s1.1 == m.s0.1 && win / 4 < dt then { m with s1 := val, s2 := val }
    else if m.s2.1 == m.s1.1 && win / 2 < dt then { m with s2 := val }
    else m

def get (m : WindowedMin) : Option ℕ := if m.set then some m.s0.2 else none

end WindowedMin

/-- RACK's per-connection state. -/
structure Rack where
  valid : Bool := false
  xmit : ℕ := 0
  stop : ℕ := 0
  rtt : ℕ := 0
  rttFrom : Option ℕ := none
  fack : ℕ := 0
  reorderingSeen : Bool := false
  reordered : ℕ := 0
  reoWndMult : ℕ := 1
  reoWndPersist : ℕ := 0
  dsackRound : Option ℕ := none
  minRtt : WindowedMin := {}
deriving DecidableEq, Repr

/-- What an ACK told the scoreboard. -/
structure Delivery where
  /-- bytes newly delivered and not SACKed before; saturates as a `u32` -/
  delivered : ℕ := 0
  origMinEnd : Option Seq := none
  maxEnd : Option Seq := none
deriving DecidableEq, Repr

namespace Delivery

def addBytes (d : Delivery) (bytes : ℕ) : Delivery :=
  { d with delivered := min (d.delivered + bytes % 2 ^ 32) (2 ^ 32 - 1) }

def noteOrig (d : Delivery) (e : Seq) : Delivery :=
  if d.origMinEnd.all (seqBefore e) then { d with origMinEnd := some e } else d

def noteMax (d : Delivery) (e : Seq) : Delivery :=
  if d.maxEnd.all (seqAfter e) then { d with maxEnd := some e } else d

def note (d : Delivery) (bytes : ℕ) (e : Seq) (original : Bool) : Delivery :=
  let d := d.addBytes bytes
  let d := if original then d.noteOrig e else d
  d.noteMax e

end Delivery

/-- A segment to (re)send: its sequence number, its length (1 for a FIN) and whether it is the
FIN. -/
abbrev SegRef := Seq × ℕ × Bool

/-- `Scoreboard`. The set of lost starts is the list of its elements in order. -/
structure Scoreboard where
  segs : List Seg
  una : Seq
  unaOff : ℕ
  sacked : ℕ
  sackedSegs : ℕ
  lost : ℕ
  lostSet : List ℕ
  rackOn : Bool
  tq : List TxRec
  nextTx : ℕ
  epoch : Instant
  rack : Rack
  /-- the previous ACK's SACK blocks -/
  sackCache : List (ℕ × ℕ)
  rate : Rate
  mss : ℕ
  lostLog : Option (List (TxState × ℕ))
deriving DecidableEq, Repr

/-- Whether `(t1, seq1)` was sent after `(t2, seq2)`, sequence breaking a tie of the clock. -/
def sentAfter (t1 seq1 t2 seq2 : ℕ) : Bool := t2 < t1 || (t1 == t2 && seq2 < seq1)

namespace Scoreboard

def new (una : Seq) (now : Instant) : Scoreboard :=
  { segs := [], una := una, unaOff := 0, sacked := 0, sackedSegs := 0, lost := 0, lostSet := [],
    rackOn := false, tq := [], nextTx := 0, epoch := now, rack := {}, sackCache := [], rate := {},
    mss := MIN_MSS, lostLog := none }

def setMss (b : Scoreboard) (mss : ℕ) : Scoreboard := { b with mss := max mss 1 }

def setRack (b : Scoreboard) (on : Bool) : Scoreboard :=
  { b with rackOn := on, tq := if on then b.tq else [] }

def ns (b : Scoreboard) (now : Instant) : ℕ := now - b.epoch

def off (b : Scoreboard) (seq : Seq) : ℕ := b.unaOff + (seq - b.una).toNat

def seqOf (b : Scoreboard) (off : ℕ) : Seq :=
  if b.unaOff ≤ off then b.una + BitVec.ofNat 32 (off - b.unaOff)
  else b.una - BitVec.ofNat 32 (b.unaOff - off)

def endOff (b : Scoreboard) : ℕ := (b.segs.getLast?.map Seg.stop).getD b.unaOff

/-- The sequence number after the last one sent. -/
def endSeq (b : Scoreboard) : Seq := b.seqOf b.endOff

/-- Bytes sent and still in the network, neither SACKed nor deemed lost. -/
def pipe (b : Scoreboard) : ℕ := (b.endOff - b.unaOff - b.sacked - b.lost) % 2 ^ 32

def idx (b : Scoreboard) (off : ℕ) : Option ℕ :=
  let i := b.segs.findIdx fun s => off < s.stop
  match b.segs[i]? with
  | none => none
  | some s => if s.start ≤ off then some i else none

def replaceAt (b : Scoreboard) (i : ℕ) (mid : List Seg) : Scoreboard :=
  { b with segs := b.segs.take i ++ mid ++ b.segs.drop (i + 1) }

/-- Cut segment `i` in two at `cut`, strictly inside it. -/
def split (b : Scoreboard) (i cut : ℕ) : Scoreboard :=
  match b.segs[i]? with
  | none => b
  | some s =>
    { b.replaceAt i [{ s with stop := cut }, { s with start := cut }] with
      lostSet := if s.lost then put cut b.lostSet else b.lostSet
      sackedSegs := if s.sacked then b.sackedSegs + 1 else b.sackedSegs }

/-- Whether segment `i` and the next one can be sent as one. -/
def mergeable (b : Scoreboard) (i : ℕ) : Bool :=
  match b.segs[i]?, b.segs[i + 1]? with
  | some a, some c =>
    a.tx == c.tx && a.sacked == c.sacked && a.lost == c.lost && a.fin == c.fin && !a.sacked && !a.fin
  | _, _ => false

/-- Join segment `i` and the next, for a retransmission covering both. -/
def mergeNext (b : Scoreboard) (i : ℕ) : Scoreboard :=
  match b.segs[i]?, b.segs[i + 1]? with
  | some a, some c =>
    { b with
      segs := b.segs.take i ++ { a with stop := c.stop, retrans := a.retrans || c.retrans } ::
        b.segs.drop (i + 2)
      lostSet := if c.lost then remove c.start b.lostSet else b.lostSet }
  | _, _ => b

def pushTx (b : Scoreboard) (r : TxRec) : Scoreboard := if b.rackOn then { b with tq := b.tq ++ [r] } else b

def onSend (b : Scoreboard) (seq : Seq) (len : ℕ) (fin : Bool) (now : Instant) (tsval : Seq) :
    Scoreboard :=
  let len := if fin then 1 else len
  if len = 0 then b
  else
    let start := b.off seq
    let xmit := b.ns now
    let tx := b.nextTx
    let (rate, snapshot) := b.rate.onSend xmit b.pipe len
    let s : Seg :=
      { start := start, stop := start + len, xmit := xmit, tsval := tsval, tx := tx, sacked := false,
        lost := false, retrans := false, fin := fin, rate := snapshot }
    ({ b with nextTx := tx + 1, rate := rate, segs := b.segs ++ [s] }).pushTx
      { start := start, stop := start + len, xmit := xmit, tx := tx }

/-- Join pieces going out as one segment, up to `stop`. A join takes a segment away, so their
number is fuel enough. -/
def mergeLoop : ℕ → Scoreboard → ℕ → ℕ → Scoreboard
  | 0, b, _, _ => b
  | n + 1, b, i, stop =>
    match b.segs[i]? with
    | none => b
    | some s => if s.stop < stop && b.mergeable i then mergeLoop n (b.mergeNext i) i stop else b

/-- Segment `s` is no longer counted as lost. -/
def unlose (b : Scoreboard) (s : Seg) : Scoreboard :=
  if s.lost then { b with lost := b.lost - s.len, lostSet := remove s.start b.lostSet } else b

/-- Segment `i` goes out again as a transmission of its own. -/
def resendAt (b : Scoreboard) (i : ℕ) (now : Instant) (tsval : Seq) : Scoreboard :=
  match b.segs[i]? with
  | none => b
  | some s =>
    let xmit := b.ns now
    let tx := b.nextTx
    let b := b.unlose s
    let len := s.len % 2 ^ 32
    -- in flight again, itself included
    let (rate, snapshot) := b.rate.onSend xmit (b.pipe - len) len
    ({ b.replaceAt i [{ s with lost := false, retrans := true, xmit := xmit, tsval := tsval, tx := tx,
                               rate := snapshot }] with nextTx := tx + 1, rate := rate }).pushTx
      { start := s.start, stop := s.stop, xmit := xmit, tx := tx }

/-- Split segment `i` at `cut` if it starts before it; also the index of what starts there. -/
def splitBefore (b : Scoreboard) (i cut : ℕ) : Scoreboard × ℕ :=
  match b.segs[i]? with
  | none => (b, i)
  | some s => if s.start < cut then (b.split i cut, i + 1) else (b, i)

/-- Split segment `i` at `cut` if it reaches past it; a FIN stays whole. -/
def splitAfter (b : Scoreboard) (i cut : ℕ) : Scoreboard :=
  match b.segs[i]? with
  | none => b
  | some s => if cut < s.stop && !s.fin then b.split i cut else b

/-- `[seq, seq + len)` was sent again: what is left of its segment past `len` stays as it was. -/
def onRetransmit (b : Scoreboard) (seq : Seq) (len : ℕ) (now : Instant) (tsval : Seq) : Scoreboard :=
  let start := b.off seq
  match b.idx start with
  | none => b
  | some i =>
    let (b, i) := b.splitBefore i start
    let stop := start + max len 1
    let b := mergeLoop b.segs.length b i stop
    (b.splitAfter i stop).resendAt i now tsval

def beginAck (b : Scoreboard) : Scoreboard := { b with rack := { b.rack with rttFrom := none } }

def rackDelivered (k : Rack) (s : Seg) (now : ℕ) (ecr : Option Seq) : Rack :=
  let k :=
    if k.fack < s.stop then { k with fack := s.stop }
    else if s.stop < k.fack && !s.retrans then
      { k with reorderingSeen := true, reordered := k.reordered + 1 }
    else k
  let rtt := now - s.xmit
  -- which transmission arrived is ambiguous
  if s.retrans && (ecr.any fun e => (e - s.tsval).toInt < 0) then k
  else if s.retrans && k.minRtt.get.any (rtt < ·) then k
  else
    let k := if k.rttFrom.all (· ≤ s.xmit) then { k with rtt := rtt, rttFrom := some s.xmit } else k
    if !k.valid || sentAfter s.xmit s.stop k.xmit k.stop then
      { k with valid := true, xmit := s.xmit, stop := s.stop }
    else k

def deliverSeg (b : Scoreboard) (s : Seg) (now : ℕ) (ecr : Option Seq) (d : Delivery) :
    Scoreboard × Delivery :=
  ({ b with
      rate := b.rate.onDelivered s.rate s.xmit s.stop s.len now
      rack := rackDelivered b.rack s now ecr },
    d.note s.len (b.seqOf s.stop) !s.retrans)

end Scoreboard

end PktKit.Vtcp
