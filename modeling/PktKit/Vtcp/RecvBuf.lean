import PktKit.Vtcp.Segment

/-! # The receiver's reassembly buffer

In-order data waits in `buf` until it is read. Data past a hole is kept in
`ooo`, ranges sorted by their offset in the stream. A result of `none` is a panic
of the source: a map range whose start lies past its end, or a slice out of
range.
-/

namespace PktKit.Vtcp

/-- What an out-of-order range costs beyond the bytes it holds. -/
def RANGE_OVERHEAD : ℕ := 128

def MAX_SACK_BLOCKS : ℕ := 4

structure OooEntry (α : Type*) where
  seq : Seq
  data : List α
deriving DecidableEq, Repr

namespace OooEntry

variable {α : Type*}

/-- The sequence number past the last byte (the source's `end`). -/
def endSeq (e : OooEntry α) : Seq := e.seq + BitVec.ofNat 32 e.data.length

/-- What it counts against the memory bound. -/
def cost (e : OooEntry α) : ℕ := e.data.length + RANGE_OVERHEAD

end OooEntry

/-- `RecvBuf`. The map of ranges is the list of its entries in key order; the capacity of the
ring is left out. -/
structure RecvBuf (α : Type*) where
  buf : List α
  nxt : Seq
  /-- RCV.NXT as an offset into the stream: a `u64`, never near its end -/
  nxtOff : ℕ
  ooo : List (ℕ × OooEntry α)
  /-- what the ranges cost together -/
  oooMem : ℕ
  /-- a sequence number inside each of the most recently extended ranges, newest first -/
  recent : List Seq
  windowSize : ℕ
  /-- the right edge of the window as last advertised -/
  advEdge : Option Seq
  /-- the first range of the last segment that was already here -/
  dup : Option SackBlock
deriving DecidableEq, Repr

namespace RecvBuf

variable {α : Type*}

def new (initialNxt : Seq) (windowSize : ℕ) : RecvBuf α :=
  { buf := [], nxt := initialNxt, nxtOff := 0, ooo := [], oooMem := 0, recent := [],
    windowSize := windowSize, advEdge := none, dup := none }

def setLimit (b : RecvBuf α) (limit : ℕ) : RecvBuf α := { b with windowSize := limit }

/-- Record the right edge of the window just advertised. -/
def setAdvEdge (b : RecvBuf α) (edge : Seq) : RecvBuf α :=
  if b.advEdge.all (seqAfter edge) then { b with advEdge := some edge } else b

/-- Bytes available to advertise, `65535` when unbounded. -/
def window (b : RecvBuf α) : ℕ :=
  if b.windowSize = 0 then 65535 else (b.windowSize - b.buf.length) % 2 ^ 32

/-- The most the out-of-order ranges may cost before the furthest are given up. -/
def oooBudget (b : RecvBuf α) : ℕ :=
  let w := max b.windowSize 65535
  w + w / 2

/-- The stream offset of `seq`; below offset 0 it wraps as a `u64` does. -/
def off (b : RecvBuf α) (seq : Seq) : ℕ :=
  let o := (b.nxtOff : ℤ) + (seq - b.nxt).toInt
  if o < 0 then (o + 2 ^ 64).toNat else o.toNat

/-- Record `[left, right)` as received twice, unless a range already is. -/
def noteDup (b : RecvBuf α) (left right : Seq) : RecvBuf α :=
  if b.dup.isNone && seqBefore left right then { b with dup := some ⟨left, right⟩ } else b

def takeDup (b : RecvBuf α) : RecvBuf α × Option SackBlock := ({ b with dup := none }, b.dup)

def rangeOf (b : RecvBuf α) (seq : Seq) : Option (OooEntry α) :=
  if !seqAfter seq b.nxt then none
  else
    match (b.ooo.filter fun x => x.1 ≤ b.off seq).getLast? with
    | none => none
    | some x => if seqBefore seq x.2.endSeq then some x.2 else none

/-- Record that the range holding `seq` was just extended. -/
def noteRecent (b : RecvBuf α) (seq : Seq) : RecvBuf α :=
  match b.rangeOf seq with
  | none => b -- pruned as soon as it arrived
  | some e =>
    let others := b.recent.filter fun s => !(seqBeforeEq e.seq s && seqBefore s e.endSeq)
    { b with recent := (seq :: others).take MAX_SACK_BLOCKS }

/-- The ranges touching `[lo, hi)`: the one starting at or before it, if it reaches that far, and
any starting inside it or at its end. -/
def touching (b : RecvBuf α) (lo hi : ℕ) : List (ℕ × OooEntry α) :=
  ((b.ooo.filter fun x => x.1 ≤ lo).getLast?.toList.filter fun x => lo ≤ x.1 + x.2.data.length) ++
    b.ooo.filter fun x => lo + 1 ≤ x.1 && x.1 ≤ hi

/-- The part of `[seq, end)` that the range `e` holds already, if any. -/
def overlapWith (seq endSeq : Seq) (e : OooEntry α) : Option (Seq × Seq) :=
  let l := if seqAfter e.seq seq then e.seq else seq
  let r := if seqBefore e.endSeq endSeq then e.endSeq else endSeq
  if seqBefore l r then some (l, r) else none

/-- Record the first part of the segment `[seq, end)` that one of the ranges held already. -/
def noteOverlap (b : RecvBuf α) (seq endSeq : Seq) (entries : List (OooEntry α)) : RecvBuf α :=
  match entries.findSome? (overlapWith seq endSeq) with
  | none => b
  | some (l, r) => b.noteDup l r

def lastLongest : List (OooEntry α) → ℕ
  | [] => 0
  | e :: es =>
    match es[lastLongest es]? with
    | none => 0
    | some m => if e.data.length ≤ m.data.length then lastLongest es + 1 else 0

/-- The new segment's bytes from `a` to `b`, where it starts at `seq`. -/
def newPart (seq : Seq) (data : List α) (a b : Seq) : Option (List α) :=
  let i := (a - seq).toNat
  let j := (b - seq).toNat
  if i ≤ j ∧ j ≤ data.length then some ((data.take j).drop i) else none

/-- What the new segment adds between the cursor and `stop`. -/
def gapTo (seq : Seq) (data : List α) (cursor stop : Seq) : Option (List α) :=
  if seqBefore cursor stop then newPart seq data cursor stop else some []

/-- Gather ranges in order from the cursor on, the gaps between them filled from the new
segment; also where the cursor ends up. -/
def gather (seq : Seq) (data : List α) : Seq → List (OooEntry α) → Option (List α × Seq)
  | cursor, [] => some ([], cursor)
  | cursor, e :: es =>
    (gapTo seq data cursor e.seq).bind fun gap =>
      (gather seq data e.endSeq es).map fun r => (gap ++ e.data ++ r.1, r.2)

/-- Where the merged range starts: at the new segment or at the first range left of `base`. -/
def frontStart (seq : Seq) (base : OooEntry α) (left : List (OooEntry α)) : Seq :=
  if seqBefore seq base.seq then
    match left.head? with
    | none => seq
    | some e => if seqBefore seq e.seq then seq else e.seq
  else base.seq

/-- The ranges of `touching` and the new segment as one range: the longest range absorbs the
rest. -/
def absorb (seq : Seq) (data : List α) (touching : List (OooEntry α)) : Option (OooEntry α) :=
  let k := lastLongest touching
  match touching[k]? with
  | none => none
  | some base =>
    let (left, right) := (touching.eraseIdx k).partition fun e => seqBefore e.seq base.seq
    let cursor := frontStart seq base left
    (gather seq data cursor left).bind fun front =>
    (gapTo seq data front.2 base.seq).bind fun gap =>
    -- everything left of the base range is pushed onto its front, the rest appended
    (gather seq data base.endSeq right).bind fun back =>
    (gapTo seq data back.2 (seq + BitVec.ofNat 32 data.length)).map fun last =>
      { seq := cursor, data := front.1 ++ gap ++ base.data ++ back.1 ++ last }

/-- Insert into the map of ranges: the entry at key `k` is `e`. -/
def putRange (k : ℕ) (e : OooEntry α) (m : List (ℕ × OooEntry α)) : List (ℕ × OooEntry α) :=
  m.filter (fun x => x.1 < k) ++ (k, e) :: m.filter (fun x => k < x.1)

/-- Add `data` at `seq` to the out-of-order ranges, merging it with any it overlaps or touches. -/
def insertOoo (b : RecvBuf α) (seq : Seq) (data : List α) : Option (RecvBuf α) :=
  let endSeq := seq + BitVec.ofNat 32 data.length
  let lo := b.off seq
  let hi := b.off endSeq
  if hi < lo + 1 then none
  else
    let found := b.touching lo hi
    if found.isEmpty then
      let e : OooEntry α := { seq := seq, data := data }
      some { b with oooMem := b.oooMem + e.cost, ooo := putRange lo e b.ooo }
    else
      let keys := found.map Prod.fst
      let entries := found.map Prod.snd
      let b := { b with
        ooo := b.ooo.filter fun x => !keys.contains x.1
        oooMem := b.oooMem - (entries.map OooEntry.cost).sum }
      let b := b.noteOverlap seq endSeq entries
      (absorb seq data entries).map fun e =>
        { b with oooMem := b.oooMem + e.cost, ooo := putRange (b.off e.seq) e b.ooo }

/-- Move whatever out-of-order data now continues the stream into it; the list is what is left
of the map. -/
def mergeLoop : List (ℕ × OooEntry α) → RecvBuf α → Option (RecvBuf α)
  | [], b => some { b with ooo := [] }
  | (k, e) :: rest, b =>
    if b.nxtOff < k then some { b with ooo := (k, e) :: rest }
    else
      let b := { b with oooMem := b.oooMem - e.cost }
      if seqAfter e.endSeq b.nxt then
        let offset := (b.nxt - e.seq).toNat
        if e.data.length < offset then none
        else
          mergeLoop rest { b with
            buf := b.buf ++ e.data.drop offset
            nxtOff := b.nxtOff + (e.endSeq - b.nxt).toNat
            nxt := e.endSeq }
      else mergeLoop rest b -- entirely before RCV.NXT

def mergeOoo (b : RecvBuf α) : Option (RecvBuf α) :=
  (mergeLoop b.ooo b).map fun b => { b with recent := b.recent.filter (seqAfterEq · b.nxt) }

/-- Over the memory bound: give up the ranges furthest from RCV.NXT. One range goes at each
turn, so their number is fuel enough. -/
def pruneLoop : ℕ → RecvBuf α → RecvBuf α
  | 0, b => b
  | n + 1, b =>
    if b.oooBudget < b.oooMem then
      match b.ooo.getLast? with
      | none => b
      | some x => pruneLoop n { b with ooo := b.ooo.dropLast, oooMem := b.oooMem - x.2.cost }
    else b

def prune (b : RecvBuf α) : RecvBuf α := pruneLoop b.ooo.length b

/-- The right edge of the window: what is free, or what was advertised past that. -/
def rightEdge (b : RecvBuf α) : Seq :=
  let edge := b.nxt + BitVec.ofNat 32 b.window
  match b.advEdge with
  | none => edge
  | some adv => if seqAfter adv edge then adv else edge

/-- Record what an in-order segment up to `end` fills in again of the first range. -/
def noteRefill (b : RecvBuf α) (endSeq : Seq) : RecvBuf α :=
  match b.ooo.head? with
  | none => b
  | some (_, e) =>
    if seqBefore e.seq endSeq then
      b.noteDup e.seq (if seqBefore e.endSeq endSeq then e.endSeq else endSeq)
    else b

/-- Take in the trimmed segment `[seq, end)`, in order or not. -/
def place (b : RecvBuf α) (seq endSeq : Seq) (slice : List α) : Option (RecvBuf α × ℕ) :=
  if seq = b.nxt then
    let b := b.noteRefill endSeq
    let b := { b with buf := b.buf ++ slice, nxt := endSeq, nxtOff := b.nxtOff + slice.length }
    b.mergeOoo.map fun b => (b, slice.length)
  else
    (b.insertOoo seq slice).map fun b => (b.prune.noteRecent seq, 0)

/-- Trim past the right edge of the window. Without a window, in-order data is taken as it
comes. -/
def insertFrom (b : RecvBuf α) (seq endSeq : Seq) (data : List α) : Option (RecvBuf α × ℕ) :=
  if (0 < b.windowSize ∨ seq ≠ b.nxt) ∧ seqAfter endSeq b.rightEdge then
    let trim := (endSeq - b.rightEdge).toNat
    if data.length ≤ trim then some (b, 0)
    else b.place seq b.rightEdge (data.take (data.length - trim))
  else b.place seq endSeq data

/-- Insert `data` at sequence `seq`; also the number of new in-order bytes added. -/
def insert (b : RecvBuf α) (seq : Seq) (data : List α) : Option (RecvBuf α × ℕ) :=
  let b := { b with dup := none }
  if data.isEmpty then some (b, 0)
  else
    let endSeq := seq + BitVec.ofNat 32 data.length
    if seqBefore seq b.nxt then
      -- trim the already-received part
      let overlap := (b.nxt - seq).toNat
      let b := b.noteDup seq (if seqBefore endSeq b.nxt then endSeq else b.nxt)
      if data.length ≤ overlap then some (b, 0)
      else b.insertFrom b.nxt endSeq (data.drop overlap)
    else b.insertFrom seq endSeq data

/-- Move the first `n` bytes out to the reader. How many a read moves is the smaller of the
caller's buffer and the ring's front half. -/
def read (b : RecvBuf α) (n : ℕ) : RecvBuf α × List α := ({ b with buf := b.buf.drop n }, b.buf.take n)

/-- In-order bytes waiting to be read. -/
def readable (b : RecvBuf α) : ℕ := b.buf.length

/-- Up to `max` SACK blocks, each once: the recently extended ranges newest first, then the ranges
nearest RCV.NXT. -/
def sackBlocksUpTo (b : RecvBuf α) (max : ℕ) : List SackBlock :=
  let max := min max MAX_SACK_BLOCKS
  let ranges := b.recent.filterMap b.rangeOf ++ b.ooo.map Prod.snd
  ranges.foldl (fun out e =>
    let block : SackBlock := ⟨e.seq, e.endSeq⟩
    if out.length = max ∨ out.contains block then out else out ++ [block]) []

end RecvBuf

end PktKit.Vtcp
