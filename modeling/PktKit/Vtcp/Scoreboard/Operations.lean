import PktKit.Vtcp.Scoreboard.Basic

/-! # What the scoreboard does with ACKs, losses and timeouts -/

namespace PktKit.Vtcp
open Foundations.OrdSets

namespace Scoreboard

/-- Take the segments below `ackOff` off the front; the list is what is left of them. -/
def ackLoop (ackOff now : ℕ) (ecr : Option Seq) :
    List Seg → Scoreboard → Delivery → Scoreboard × Delivery
  | [], b, d => ({ b with segs := [] }, d)
  | front :: rest, b, d =>
    if front.stop ≤ ackOff then
      let b := b.unlose front
      if front.sacked then
        ackLoop ackOff now ecr rest
          { b with sacked := b.sacked - front.len, sackedSegs := b.sackedSegs - 1 } d
      else
        let (b, d) := b.deliverSeg front now ecr d
        ackLoop ackOff now ecr rest b d
    else if front.start < ackOff then
      -- delivered bytes, but the segment as RACK sees it is not in until all of it is
      let cut := ackOff - front.start
      let b := { b with segs := { front with start := ackOff } :: rest }
      let (b, d) :=
        if front.sacked then ({ b with sacked := b.sacked - cut }, d)
        else ({ b with rate := b.rate.onPartial cut }, d.addBytes cut)
      if front.lost then
        ({ b with lost := b.lost - cut, lostSet := put ackOff (remove front.start b.lostSet) }, d)
      else (b, d)
    else ({ b with segs := front :: rest }, d)

def ack (b : Scoreboard) (a : Seq) (now : Instant) (ecr : Option Seq) : Scoreboard × Delivery :=
  if !seqAfter a b.una then (b, {})
  else
    let ackOff := b.off a
    let (b, d) := ackLoop ackOff (b.ns now) ecr b.segs b {}
    -- an ACK past what was recorded covers a SYN
    ({ b with una := a, unaOff := ackOff }, d)

/-- Whether a SACK may add `n` records. -/
def maySplit (b : Scoreboard) (n : ℕ) : Bool :=
  b.segs.length + n ≤ 2 * (b.endOff - b.unaOff) / b.mss + SPLIT_SLACK

def sackAt (b : Scoreboard) (i now : ℕ) (ecr : Option Seq) (d : Delivery) : Scoreboard × Delivery :=
  match b.segs[i]? with
  | none => (b, d)
  | some s =>
    let b := (b.unlose s).replaceAt i [{ s with sacked := true, lost := false }]
    ({ b with sacked := b.sacked + s.len, sackedSegs := b.sackedSegs + 1 }).deliverSeg s now ecr d

/-- What of segment `s` a SACK of the block `[l, r)` covers: the part of it to mark, or `none` to
leave it. A cut falls on a whole number of MSS from the segment's start. -/
def sackPart (b : Scoreboard) (s : Seg) (l r : ℕ) : Option (ℕ × ℕ) :=
  let lo := max s.start l
  let hi := min s.stop r
  if s.start < lo ∨ hi < s.stop then
    if s.len ≤ b.mss ∨ s.fin then none
    else
      let lo := if s.start < lo then s.start + (lo - s.start + b.mss - 1) / b.mss * b.mss else lo
      let hi := if hi < s.stop then s.start + (hi - s.start) / b.mss * b.mss else hi
      let cuts := (if s.start < lo then 1 else 0) + (if hi < s.stop then 1 else 0)
      if hi ≤ lo ∨ !b.maySplit cuts then none else some (lo, hi)
  else some (lo, hi)

/-- Mark SACKed the segments from index `i` on that start before `pr` and the block `[l, r)`
covers. Each turn goes on to a later start, so `pr` less the first one is fuel enough. -/
def markSackedLoop (l r pr now : ℕ) (ecr : Option Seq) :
    ℕ → ℕ → Scoreboard → Delivery → Scoreboard × Delivery
  | 0, _, b, d => (b, d)
  | n + 1, i, b, d =>
    match b.segs[i]? with
    | none => (b, d)
    | some s =>
      if pr ≤ s.start then (b, d)
      else if s.sacked then markSackedLoop l r pr now ecr n (i + 1) b d
      else
        match b.sackPart s l r with
        | none => markSackedLoop l r pr now ecr n (i + 1) b d
        | some (lo, hi) =>
          let (b, i) := b.splitBefore i lo
          let b := b.splitAfter i hi
          let (b, d) := b.sackAt i now ecr d
          markSackedLoop l r pr now ecr n (i + 1) b d

/-- Mark SACKed the segments in `[pl, pr)`, a part of `block` not reported before. -/
def markSacked (b : Scoreboard) (block : ℕ × ℕ) (part : ℕ × ℕ) (now : ℕ) (ecr : Option Seq)
    (d : Delivery) : Scoreboard × Delivery :=
  match b.idx part.1 with
  | none => (b, d)
  | some i =>
    let first := (b.segs[i]?.map Seg.start).getD part.1
    markSackedLoop block.1 block.2 part.2 now ecr (part.2 - first) i b d

/-- A SACK block as offsets, clipped to what is in flight; `none` if it lies wholly outside. -/
def clip (b : Scoreboard) (k : SackBlock) : Option (ℕ × ℕ) :=
  if !seqAfter k.right b.una || !seqBefore k.left b.endSeq then none
  else
    let l := if seqBefore k.left b.una then b.unaOff else b.off k.left
    let r := if seqAfter k.right b.endSeq then b.endOff else b.off k.right
    if l < r then some (l, r) else none

/-- What is left of a part once a range reported before is taken out. -/
def cutOut (part cached : ℕ × ℕ) : List (ℕ × ℕ) :=
  if cached.2 ≤ part.1 ∨ part.2 ≤ cached.1 then [part]
  else
    (if part.1 < cached.1 then [(part.1, cached.1)] else []) ++
      (if cached.2 < part.2 then [(cached.2, part.2)] else [])

/-- The parts of a range that the previous ACK's blocks did not already cover. -/
def newParts (range : ℕ × ℕ) (cache : List (ℕ × ℕ)) : List (ℕ × ℕ) :=
  cache.foldl (fun parts c => parts.flatMap (cutOut · c)) [range]

/-- Order of pairs by their first, then their second component. -/
def pairLe (x y : ℕ × ℕ) : Prop := x.1 < y.1 ∨ (x.1 = y.1 ∧ x.2 ≤ y.2)

instance : DecidableRel pairLe := fun _ _ => inferInstanceAs (Decidable (_ ∨ _))

def sack (b : Scoreboard) (blocks : List SackBlock) (now : Instant) (ecr : Option Seq) :
    Scoreboard × Delivery :=
  let ranges := (blocks.filterMap b.clip).insertionSort pairLe
  let nowNs := b.ns now
  let cache := b.sackCache
  let work := ranges.flatMap fun range => (newParts range cache).map fun part => (range, part)
  let (b, d) := work.foldl
    (fun (acc : Scoreboard × Delivery) w => acc.1.markSacked w.1 w.2 nowNs ecr acc.2)
    ({ b with sackCache := [] }, {})
  ({ b with sackCache := ranges }, d)

def rttSample (b : Scoreboard) (rtt : Duration) (now : Instant) : Scoreboard :=
  { b with rack := { b.rack with minRtt := b.rack.minRtt.update MIN_RTT_WINDOW (b.ns now) rtt } }

/-- The delivery rate sample of the ACK just processed. -/
def rateSample (b : Scoreboard) : Scoreboard × Option RateSample :=
  let (rate, s) := b.rate.sample b.rack.minRtt.get
  ({ b with rate := rate }, s)

def onCe (b : Scoreboard) (len : ℕ) : Scoreboard := { b with rate := b.rate.onCe len }

def markAppLimited (b : Scoreboard) : Scoreboard := { b with rate := b.rate.markAppLimited b.pipe }

def setTrackLosses (b : Scoreboard) (on : Bool) : Scoreboard :=
  { b with lostLog := if on then some [] else none }

/-- The segments marked lost since last asked, with their sizes. -/
def takeLosses (b : Scoreboard) : Scoreboard × List (TxState × ℕ) :=
  ({ b with lostLog := b.lostLog.map fun _ => [] }, b.lostLog.getD [])

/-- RACK step 4: the reordering window for this ACK. -/
def reoWnd (b : Scoreboard) (dsack recovering exiting : Bool) (srtt : Duration) : Scoreboard × Duration :=
  let k := b.rack
  let k := if k.dsackRound.any (· ≤ b.unaOff) then { k with dsackRound := none } else k
  let k :=
    if k.dsackRound.isNone && dsack then
      { k with dsackRound := some b.endOff, reoWndMult := k.reoWndMult + 1,
               reoWndPersist := REO_WND_PERSIST }
    else if exiting then
      let k := { k with reoWndPersist := k.reoWndPersist - 1 }
      if k.reoWndPersist = 0 then { k with reoWndMult := 1 } else k
    else k
  let wnd :=
    if !k.reorderingSeen && (recovering || DUP_THRESH ≤ b.sackedSegs) then 0
    else min (k.minRtt.get.getD 0 * k.reoWndMult / 4) srtt
  ({ b with rack := k }, wnd)

/-- Segment `i` is deemed lost; also whether that is new. -/
def markLost (b : Scoreboard) (i : ℕ) : Scoreboard × Bool :=
  match b.segs[i]? with
  | none => (b, false)
  | some s =>
    if s.lost || s.sacked then (b, false)
    else
      ({ b.replaceAt i [{ s with lost := true }] with
          lost := b.lost + s.len
          rate := b.rate.onLost s.len
          lostLog := b.lostLog.map fun log => log ++ [(s.rate, s.len % 2 ^ 32)]
          lostSet := put s.start b.lostSet },
        true)

/-- Mark lost, in order, the segments among `is` that satisfy `p`; also whether any is new. -/
def markLostWhere (p : ℕ → Seg → Bool) (is : List ℕ) (b : Scoreboard) : Scoreboard × Bool :=
  is.foldl
    (fun acc i =>
      if (acc.1.segs[i]?).any (p i) then
        let r := acc.1.markLost i
        (r.1, acc.2 || r.2)
      else acc)
    (b, false)

/-- The segments of transmission `rec` still in flight as it left them, as a range of indices;
empty if there is none. -/
def liveRange (b : Scoreboard) (rec : TxRec) : ℕ × ℕ :=
  if rec.stop ≤ b.unaOff then (0, 0)
  else
    let first := b.segs.findIdx fun s => rec.start < s.stop
    let covered := (b.segs.drop first).takeWhile fun s => s.start < rec.stop
    let last := first + covered.length
    if covered.any fun s => s.tx == rec.tx && s.inFlight then
      (first + covered.findIdx fun s => s.tx == rec.tx, last)
    else (0, 0)

/-- What a scan of the transmission queue leaves. -/
structure Scan where
  board : Scoreboard
  /-- the entries still to be decided -/
  kept : List TxRec
  /-- the entries not scanned -/
  rest : List TxRec
  marked : Bool
  timeout : ℕ

/-- Scan the queue, oldest first, up to the first entry not sent before RACK.segment. -/
def scanLoop (now reo : ℕ) (k : Rack) : List TxRec → Scoreboard → List TxRec → Bool → ℕ → Scan
  | [], b, kept, marked, timeout => ⟨b, kept, [], marked, timeout⟩
  | rec :: rest, b, kept, marked, timeout =>
    if !sentAfter k.xmit k.stop rec.xmit rec.stop then ⟨b, kept, rec :: rest, marked, timeout⟩
    else
      let live := b.liveRange rec
      if live.2 ≤ live.1 then scanLoop now reo k rest b kept marked timeout
      else
        let due := rec.xmit + k.rtt + reo
        if due ≤ now then
          let r := b.markLostWhere (fun _ s => s.tx == rec.tx) (List.range' live.1 (live.2 - live.1))
          scanLoop now reo k rest r.1 kept (marked || r.2) timeout
        else scanLoop now reo k rest b (kept ++ [rec]) marked (max timeout (due - now))

/-- RACK step 5: mark lost what was sent before RACK.segment and has had `reoWnd` on top of a
round trip to show up; also whether anything was, and when the rest is due. -/
def detectLoss (b : Scoreboard) (now : Instant) (reoWnd : Duration) :
    Scoreboard × Bool × Option Duration :=
  if !b.rackOn || !b.rack.valid then (b, false, none)
  else
    let s := scanLoop (b.ns now) reoWnd b.rack b.tq b [] false 0
    ({ s.board with tq := s.kept ++ s.rest }, s.marked, if 0 < s.timeout then some s.timeout else none)

/-- On a retransmission timeout the first segment is lost, and anything sent longer than a round
trip and the reordering window ago. -/
def markLostOnRto (b : Scoreboard) (now : Instant) (reoWnd : Duration) : Scoreboard :=
  let nowNs := b.ns now
  let wait := b.rack.rtt + reoWnd
  (b.markLostWhere (fun i s => i == 0 || s.xmit + wait ≤ nowNs) (List.range b.segs.length)).1

def markAllLost (b : Scoreboard) : Scoreboard :=
  (b.markLostWhere (fun _ _ => true) (List.range b.segs.length)).1

def markLongerLost (b : Scoreboard) (max : ℕ) : Scoreboard :=
  (b.markLostWhere (fun _ s => !s.fin && max < s.len) (List.range b.segs.length)).1

def markHeadLost (b : Scoreboard) : Scoreboard × Bool := b.markLost 0

/-- Mark lost the segments from index `i` on that start before `stop`, cut there. Each turn goes
on to the next segment and at most the last is cut, so their number and one is fuel enough. -/
def markRangeLoop (stop : ℕ) : ℕ → ℕ → Scoreboard → Bool → Scoreboard × Bool
  | 0, _, b, marked => (b, marked)
  | n + 1, i, b, marked =>
    match b.segs[i]? with
    | none => (b, marked)
    | some s =>
      if stop ≤ s.start then (b, marked)
      else
        let r := (b.splitAfter i stop).markLost i
        markRangeLoop stop n (i + 1) r.1 (marked || r.2)

/-- An offset no lower than SND.UNA's. -/
def offFrom (b : Scoreboard) (seq : Seq) : ℕ := if seqBefore seq b.una then b.unaOff else b.off seq

/-- Mark lost what of `[seq, stop)` is outstanding; also whether anything was. -/
def markRangeLost (b : Scoreboard) (seq stop : Seq) : Scoreboard × Bool :=
  let first := b.offFrom seq
  let last := b.offFrom stop
  match b.idx first with
  | none => (b, false)
  | some i =>
    let (b, i) := b.splitBefore i first
    markRangeLoop last (b.segs.length + 1) i b false

/-- Forget every SACK: the receiver has reneged on them. -/
def clearSacks (b : Scoreboard) : Scoreboard :=
  { b with segs := b.segs.map fun s => { s with sacked := false }
           sacked := 0, sackedSegs := 0, sackCache := [] }

/-- The records of the lost segments, touching pieces of one transmission joined. -/
def lostRecs : List Seg → List TxRec → List TxRec
  | [], back => back
  | s :: rest, back =>
    if !s.lost then lostRecs rest back
    else
      let own : TxRec := { start := s.start, stop := s.stop, xmit := s.xmit, tx := s.tx }
      match back.getLast? with
      | none => lostRecs rest [own]
      | some r =>
        if r.tx == s.tx && r.stop == s.start then
          lostRecs rest (back.dropLast ++ [{ r with stop := s.stop }])
        else lostRecs rest (back ++ [own])

def txLe (a c : TxRec) : Prop := a.xmit < c.xmit ∨ (a.xmit = c.xmit ∧ a.stop ≤ c.stop)

instance : DecidableRel txLe := fun _ _ => inferInstanceAs (Decidable (_ ∨ _))

/-- Nothing is lost after all: what was marked is back in flight as it was sent, and back in
RACK's queue too. -/
def unmarkLost (b : Scoreboard) : Scoreboard :=
  let back := if b.rackOn then lostRecs b.segs [] else []
  { b with segs := b.segs.map fun s => { s with lost := false }
           lost := 0, lostSet := []
           tq := if back.isEmpty then b.tq else (b.tq ++ back).insertionSort txLe }

def lostBytes (b : Scoreboard) : ℕ := b.lost % 2 ^ 32

def segRef (b : Scoreboard) (s : Seg) (max : ℕ) : SegRef :=
  (b.seqOf s.start, if s.fin then 1 else min (s.len % 2 ^ 32) (Max.max max 1), s.fin)

/-- How far lost pieces from index `j` on go out as one with what starts at `start`: the end of
the last, and whether there is another. The segments are fuel enough. -/
def joinLost (b : Scoreboard) (start max : ℕ) : ℕ → ℕ → ℕ → ℕ × ℕ
  | 0, j, stop => (j, stop)
  | n + 1, j, stop =>
    match b.segs[j + 1]? with
    | none => (j, stop)
    | some s =>
      if stop - start < max && b.mergeable j && s.lost then joinLost b start max n (j + 1) s.stop
      else (j, stop)

/-- The lowest segment deemed lost and not yet sent again, cut to `max`, and joined with the lost
ones right after it up to `max`. -/
def nextLost (b : Scoreboard) (max : ℕ) : Option SegRef :=
  match b.lostSet.head? with
  | none => none
  | some start =>
    match b.idx start with
    | none => none
    | some i =>
      match b.segs[i]? with
      | none => none
      | some s =>
        let (seq, len, fin) := b.segRef s max
        let max := Max.max max 1
        let (j, stop) := if fin then (i, s.stop) else b.joinLost start max b.segs.length i s.stop
        some (seq, if j = i then len else min (stop - start) max, fin)

end Scoreboard

end PktKit.Vtcp
