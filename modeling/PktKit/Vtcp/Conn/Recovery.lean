import PktKit.Vtcp.Conn.State

/-! # Loss recovery

How a recovery episode starts, what it keeps to be undone by, what it notes of its retransmissions and what
D-SACKs say of them; and how much may be sent in it.
-/

namespace PktKit.Vtcp

namespace Conn

variable {κ : Type} [CongestionController κ]

def new (cfg : ConnConfig) (now : Instant) (tsOffset : Seq) (budget : Budget) (share : Option Budget) :
    Conn κ :=
  let mss := max cfg.mss 1
  { cfg := cfg
    now := now
    state := .closed
    closed := false
    snd :=
      { sendBuf := none, score := Scoreboard.new 0 now, sndWnd := DEFAULT_WINDOW_SIZE, maxSndWnd := 0,
        sndWl := none, finQueued := false, finSent := false, synDataEnd := none }
    rcv :=
      { recvBuf := none, rcvAdv := none, lastAckSent := none, dsackOut := none, synData := [],
        irs := 0, finPending := false, pendingFinSeq := 0 }
    opts :=
      { sndWndShift := 0, rcvWndShift := cfg.rcvWscale, wscaleOk := false, tsOk := false,
        tsRecent := 0, tsRecentStamp := now, tsOffset := tsOffset, sackOk := false }
    path :=
      { mss := mss, mssClamp := mss, pathMss := 65535
        plpmtud :=
          if cfg.ipv6 then Search.new cfg.mtuProbing 60 IPV6_MIN_PATH_MTU now
          else Search.new cfg.mtuProbing 40 IPV4_MIN_PATH_MTU now
        mtuProbe := none, blackHoleUndo := false }
    cc := makeCc κ mss cfg.pacing now
    rto := RtoState.new now
    loss :=
      { retries := 0, ca := .opened, recover := 0, synLost := false, dupAcks := 0, renoSacked := 0,
        undo := {}, frto := .off, rtoAdapt := none, prrDelivered := 0, prrOut := 0, recoverFs := 1,
        tlpEnd := none, tlpRetrans := false, rttSampled := false, cwrHigh := none }
    timers :=
      { rto := none, reo := none, pto := none, pace := none, delack := none, persist := none,
        timeWait := none, keepalive := none }
    usage :=
      { pipeAck := PipeAck.new, nvpSince := none, lastDataSent := none, cwndBlocked := false,
        isCwndLimited := false, maxFlight := 0, cwndUsageSeq := 0 }
    pacer := { credit := 0, stamp := now, srtt := none, late := 0 }
    acks :=
      { lastOowAck := none, quickAcks := 0, pingpong := false, rcvMss := min mss 536,
        lastDataRecv := none, ackPushed := false }
    tune :=
      { budget := budget, share := share, grown := 0, rcvGrown := 0, sndNospace := false,
        rcvSpace := RcvSpace.new (10 * mss) now }
    live :=
      { persistBackoff := 0, probesOut := 0, orphanProbes := 0, keepaliveSent := 0, lastRecv := now,
        released := none, establishedSignaled := false, finRecvdSignaled := false }
    tfo := {}
    ecn := {}
    rxEcn := .notEct
    outgoing := []
    panicked := false }

def sndUna (c : Conn κ) : Seq := (c.snd.sendBuf.map SendBuf.una).getD 0

/-- Sequence numbers sent and not yet acknowledged. -/
def unacked (c : Conn κ) : ℕ := (c.snd.sendBuf.map SendBuf.unacked).getD 0

/-- The ranges followed for a D-SACK undo, with one more; `none` once there are too many. -/
def addRetrans (r : List (Seq × Seq)) (seq stop : Seq) : Option (List (Seq × Seq)) :=
  match r.getLast? with
  | some last =>
    if last.2 = seq then some (r.dropLast ++ [(last.1, stop)])
    else if r.length < MAX_UNDO_RANGES then some (r ++ [(seq, stop)])
    else none
  | none => some [(seq, stop)]

def noteRetransmission (c : Conn κ) (seq : Seq) (len : ℕ) (tsval : Seq) : Conn κ :=
  if c.loss.ca = .opened || c.loss.undo.marker.isNone then c
  else
    let stop := seq + BitVec.ofNat 32 len
    let u := c.loss.undo
    let u := if u.retransTs.isNone then { u with retransTs := some tsval, eifelEnd := some stop } else u
    { c with loss.undo := { u with retrans := u.retrans.bind (addRetrans · seq stop) } }

/-- A loss response begins: keep what undoing it would restore. -/
def beginUndo (c : Conn κ) (timeout : Bool) : Conn κ :=
  let cc := CongestionController.saveUndo c.cc
  { c with
    cc := cc
    loss.undo :=
      { marker := some c.sndUna, pipePrev := max c.unacked (CongestionController.ssthresh cc),
        timeout := timeout, srttPrev := c.rto.srtt + 2 * CLOCK_TICK, rttvarPrev := c.rto.rttvar,
        retransTs := none, eifelEnd := none, retrans := some [] } }

def prrSndcnt (prrDelivered prrOut recoverFs ssthresh pipe delivered mss : ℕ) : ℕ :=
  let sndcnt :=
    if ssthresh < pipe then
      (prrDelivered * ssthresh + max recoverFs 1 - 1) / max recoverFs 1 - prrOut
    else min (ssthresh - pipe) (max (prrDelivered - prrOut) delivered + mss)
  min sndcnt U32_MAX

/-- What a D-SACK block leaves of a retransmitted range. -/
def dsackCut (b : SackBlock) (r : Seq × Seq) : List (Seq × Seq) :=
  if !seqBefore b.left r.2 || !seqAfter b.right r.1 then [r]
  else
    (if seqBefore r.1 b.left then [(r.1, b.left)] else []) ++
      (if seqAfter r.2 b.right then [(b.right, r.2)] else [])

/-- Take a D-SACK against what the episode retransmitted; also whether it has reported all of it. -/
def dsackCoversRetransmissions (c : Conn κ) (b : SackBlock) : Conn κ × Bool :=
  match c.loss.undo.marker, c.loss.undo.retrans with
  | some marker, some r =>
    if r.isEmpty || !seqAfter b.right marker then (c, false)
    else
      let changed := r.any fun x => !(!seqBefore b.left x.2 || !seqAfter b.right x.1)
      let out := r.flatMap (dsackCut b)
      ({ c with loss.undo := { c.loss.undo with retrans := some out } }, changed && out.isEmpty)
  | _, _ => (c, false)

end Conn

end PktKit.Vtcp
