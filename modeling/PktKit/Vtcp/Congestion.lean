import PktKit.Vtcp.Rate
import PktKit.Vtcp.SeqSpace

/-! # Congestion controllers

What a connection asks of its congestion controller, as a class: the window, and how it
grows and shrinks. A connection is modelled over any instance; NewReno is one.
-/

namespace PktKit.Vtcp

/-- What a cumulative ACK outside fast recovery tells the controller. -/
structure Ack where
  now : Instant
  bytesAcked : ℕ
  flight : ℕ
  rtt : Option Duration
  ack : Seq
  sndNxt : Seq
  rs : Option RateSample
  newlyAcked : ℕ
  newlyLost : ℕ
  inflight : ℕ
  delivered : ℕ
  newestRtt : Option Duration
  cwndLimited : Bool
  sack : Bool
  ecn : Bool
  ce : Bool
  deliveredCe : ℕ

/-- A segment just marked lost. -/
structure Lost where
  tx : TxState
  len : ℕ
  totalLost : ℕ
  delivered : ℕ

def U32_MAX : ℕ := 2 ^ 32 - 1

/-- A congestion controller; the methods with a default are those the source gives one. -/
class CongestionController (κ : Type) where
  /-- a controller for segments of `mss` bytes -/
  make : (mss : ℕ) → (now : Instant) → κ
  onAck : κ → Ack → κ
  modelBased : κ → Bool := fun _ => false
  onLost : κ → Lost → κ := fun c _ => c
  onRecoveryExit : κ → κ := id
  onTransmit : κ → (now : Instant) → (idle : Bool) → κ := fun c _ _ => c
  onTxStart : κ → (now : Instant) → (lastSent : Instant) → κ := fun c _ _ => c
  takeAppLimited : κ → κ × Bool := fun c => (c, false)
  pacingRate : κ → Option ℕ := fun _ => none
  setPaced : κ → Bool → κ := fun c _ => c
  onLoss : κ → (flightSize : ℕ) → κ
  onEcn : κ → (flightSize : ℕ) → κ := onLoss
  onRetransmitTimeout : κ → (flightSize : ℕ) → (repeated : Bool) → κ
  onHandshakeLoss : κ → κ := fun c => onRetransmitTimeout c 0 true
  setMss : κ → ℕ → κ := fun c _ => c
  setCwnd : κ → ℕ → κ
  saveUndo : κ → κ := id
  undo : κ → (cwnd ssthresh : ℕ) → κ
  restart : κ → (cwnd ssthresh : ℕ) → κ
  cwnd : κ → ℕ
  ssthresh : κ → ℕ

def makeCc (κ : Type) [CongestionController κ] (mss : ℕ) (paced : Bool) (now : Instant) : κ :=
  let cc : κ := CongestionController.make mss now
  CongestionController.setPaced cc (paced || CongestionController.modelBased cc)

def initialWindow (mss : ℕ) : ℕ := min (10 * mss) (max (2 * mss) 14600)

/-- Whether an ACK arriving with `flight` bytes outstanding may grow cwnd. -/
def mayGrow (cwnd ssthresh mss flight : ℕ) : Bool :=
  if cwnd < ssthresh then cwnd < min (flight * 2) U32_MAX else cwnd < min (flight + mss) U32_MAX

def slowStartInc (bytesAcked mss : ℕ) : ℕ := min bytesAcked (min (mss * 2) U32_MAX)

/-- RFC 5681's controller. -/
structure NewReno where
  cwnd : ℕ
  ssthresh : ℕ
  mss : ℕ
  caAcked : ℕ
deriving DecidableEq, Repr

namespace NewReno

def new (mss : ℕ) : NewReno := { cwnd := initialWindow mss, ssthresh := U32_MAX, mss := mss, caAcked := 0 }

def onAck (r : NewReno) (a : Ack) : NewReno :=
  if !mayGrow r.cwnd r.ssthresh r.mss a.flight then r
  else if r.cwnd < r.ssthresh then
    { r with cwnd := min (r.cwnd + slowStartInc a.bytesAcked r.mss) U32_MAX }
  else
    let acked := min (r.caAcked + a.bytesAcked) U32_MAX
    if r.cwnd ≤ acked then
      { r with caAcked := acked - r.cwnd, cwnd := min (r.cwnd + r.mss) U32_MAX }
    else { r with caAcked := acked }

def onLoss (r : NewReno) (flightSize : ℕ) : NewReno :=
  { r with ssthresh := max (flightSize / 2) (2 * r.mss), caAcked := 0 }

def onEcn (r : NewReno) (flightSize : ℕ) : NewReno :=
  if r.cwnd < r.ssthresh then r.onLoss flightSize
  else { r with ssthresh := max (flightSize * 4 / 5) (2 * r.mss), caAcked := 0 }

def onRetransmitTimeout (r : NewReno) (flightSize : ℕ) (repeated : Bool) : NewReno :=
  let r := if repeated then r else r.onLoss flightSize
  { r with cwnd := r.mss, caAcked := 0 }

def undo (r : NewReno) (cwnd ssthresh : ℕ) : NewReno :=
  { r with cwnd := max cwnd r.mss, ssthresh := ssthresh, caAcked := 0 }

instance : CongestionController NewReno where
  make mss _ := new mss
  onAck := onAck
  onLoss := onLoss
  onEcn := onEcn
  onRetransmitTimeout := onRetransmitTimeout
  setMss r mss := { r with mss := max mss 1 }
  setCwnd r cwnd := { r with cwnd := max cwnd r.mss }
  undo := undo
  restart := undo
  cwnd := NewReno.cwnd
  ssthresh := NewReno.ssthresh

end NewReno

end PktKit.Vtcp
