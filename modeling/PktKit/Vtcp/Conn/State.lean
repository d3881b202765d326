import PktKit.Vtcp.Congestion
import PktKit.Vtcp.Ecn
import PktKit.Vtcp.Plpmtud
import PktKit.Vtcp.Rto
import PktKit.Vtcp.Scoreboard.Operations
import PktKit.Vtcp.SendBuf
import PktKit.Vtcp.Sizing

/-! # The state of a connection

The fields of `Conn` in groups, over any congestion controller. A clock reading, an
initial sequence number, the timestamps' offset and what the shared budgets have left are
inputs of the calls that take them. Counters and whatever only `info` reports are left out.
-/

namespace PktKit.Vtcp

def DEFAULT_MSS : ℕ := 1460
def DEFAULT_WINDOW_SIZE : ℕ := 65535
def IPV4_MIN_PATH_MTU : ℕ := 552
def IPV6_MIN_PATH_MTU : ℕ := 1280
def MAX_UNDO_RANGES : ℕ := 256
def CLOCK_TICK : Duration := Duration.fromMillis 1

inductive State where
  | closed
  | listen
  | synSent
  | synReceived
  | established
  | finWait1
  | finWait2
  | closeWait
  | closing
  | lastAck
  | timeWait
deriving DecidableEq, Repr

inductive LossState where
  | opened
  | recovery
  | loss
deriving DecidableEq, Repr

/-- Where F-RTO stands. -/
inductive Frto where
  | off
  | first (headEnd : Seq)
  | second (rp : Seq)
deriving DecidableEq, Repr

/-- A loss response, kept so it can be undone. -/
structure Undo where
  marker : Option Seq := none
  pipePrev : ℕ := 0
  timeout : Bool := false
  srttPrev : Duration := 0
  rttvarPrev : Duration := 0
  retransTs : Option Seq := none
  eifelEnd : Option Seq := none
  retrans : Option (List (Seq × Seq)) := none
deriving DecidableEq, Repr

structure Probe where
  start : Seq
  /-- the source's `end` -/
  stop : Seq
  mtu : ℕ
  othersLost : Bool
deriving DecidableEq, Repr

/-- A connection's configuration. Of the addresses only the family counts, and whether both are
known. -/
structure ConnConfig where
  ipv6 : Bool := false
  addressed : Bool := false
  localPort : BitVec 16 := 0
  remotePort : BitVec 16 := 0
  mss : ℕ := DEFAULT_MSS
  noWindowScaling : Bool := false
  enableTimestamps : Bool := true
  enableSack : Bool := true
  pacing : Bool := true
  slowStartAfterIdle : Bool := true
  keepalive : Bool := false
  keepaliveIdle : Duration := Duration.fromSecs 300
  keepaliveInterval : Duration := Duration.fromSecs 15
  keepaliveCount : ℕ := 3
  sendBufSize : ℕ := 2 ^ 20
  recvBufSize : ℕ := 2 ^ 20
  sendBufMax : ℕ := 16 * 2 ^ 20
  recvBufMax : ℕ := 16 * 2 ^ 20
  autotune : Bool := true
  finWait2Timeout : Option Duration := some (Duration.fromSecs 60)
  timeWait : Duration := Duration.fromSecs 60
  nodelay : Bool := false
  ecn : EcnMode := .passive
  mtuProbing : MtuProbing := .onBlackHole
  fastOpen : Bool := false
  /-- it is a `u16` -/
  mss_lt : mss < 2 ^ 16 := by decide

namespace ConnConfig

/-- The most the receive buffer may grow to. -/
def recvMax (cfg : ConnConfig) : ℕ :=
  if cfg.autotune then max cfg.recvBufMax cfg.recvBufSize else cfg.recvBufSize

/-- The smallest shift up to 14 that lets 16 bits say `max`. The first argument is what is left
of the 14. -/
def shiftFor (max : ℕ) : ℕ → ℕ → ℕ
  | 0, shift => shift
  | n + 1, shift => if 65535 < max / 2 ^ shift then shiftFor max n (shift + 1) else shift

/-- The largest shift up to the given one whose unit is at most half of `size`. -/
def shiftWithin (size : ℕ) : ℕ → ℕ
  | 0 => 0
  | shift + 1 => if size / 2 < 2 ^ (shift + 1) then shiftWithin size shift else shift + 1

def rcvWscale (cfg : ConnConfig) : ℕ :=
  if cfg.noWindowScaling then 0 else shiftWithin cfg.recvBufSize (shiftFor cfg.recvMax 14 0)

end ConnConfig

/-- Bytes of buffer growth handed out, against a cap. -/
structure Budget where
  used : ℕ
  cap : ℕ
deriving DecidableEq, Repr

namespace Budget

end Budget

/-- What is sent: the buffer, its scoreboard, the peer's window and our FIN. -/
structure Snd where
  sendBuf : Option (SendBuf UInt8)
  score : Scoreboard
  sndWnd : ℕ
  maxSndWnd : ℕ
  sndWl : Option (Seq × Seq)
  finQueued : Bool
  finSent : Bool
  synDataEnd : Option Seq

/-- What is received: the buffer, what was advertised and acknowledged, and the peer's FIN. -/
structure Rcv where
  recvBuf : Option (RecvBuf UInt8)
  rcvAdv : Option Seq
  lastAckSent : Option Seq
  dsackOut : Option SackBlock
  synData : List UInt8
  irs : Seq
  finPending : Bool
  pendingFinSeq : Seq

/-- What the handshake negotiated: window scaling, timestamps and SACK. -/
structure Options where
  sndWndShift : ℕ
  rcvWndShift : ℕ
  wscaleOk : Bool
  tsOk : Bool
  tsRecent : Seq
  tsRecentStamp : Instant
  tsOffset : Seq
  sackOk : Bool

/-- The segment size and the search for the path MTU. -/
structure Path where
  mss : ℕ
  mssClamp : ℕ
  pathMss : ℕ
  plpmtud : Search
  mtuProbe : Option Probe
  blackHoleUndo : Bool

structure Recovery where
  retries : ℕ
  ca : LossState
  recover : Seq
  synLost : Bool
  dupAcks : ℕ
  renoSacked : ℕ
  undo : Undo
  frto : Frto
  rtoAdapt : Option (Duration × Duration × Seq)
  prrDelivered : ℕ
  prrOut : ℕ
  recoverFs : ℕ
  tlpEnd : Option Seq
  tlpRetrans : Bool
  rttSampled : Bool
  cwrHigh : Option Seq

structure Timers where
  rto : Option Instant
  reo : Option Instant
  pto : Option Instant
  pace : Option Instant
  delack : Option Instant
  persist : Option Instant
  timeWait : Option Instant
  keepalive : Option Instant

/-- How much of cwnd is in use. -/
structure Usage where
  pipeAck : PipeAck
  nvpSince : Option Instant
  lastDataSent : Option Instant
  cwndBlocked : Bool
  isCwndLimited : Bool
  maxFlight : ℕ
  cwndUsageSeq : Seq

/-- The pacing token bucket. The source's `f64` is a rational number here. -/
structure Pacer where
  credit : ℚ
  stamp : Instant
  srtt : Option Duration
  late : Duration

/-- Delayed ACKs and the throttle of answers to invalid segments. -/
structure AckPolicy where
  lastOowAck : Option Instant
  quickAcks : ℕ
  pingpong : Bool
  rcvMss : ℕ
  lastDataRecv : Option Instant
  ackPushed : Bool

/-- Buffer auto-tuning. The budgets are shared between connections: what stands here is what this
one finds there. -/
structure Tune where
  budget : Budget
  share : Option Budget
  grown : ℕ
  rcvGrown : ℕ
  sndNospace : Bool
  rcvSpace : RcvSpace

/-- Whether the peer, and the owner, are still there. -/
structure Liveness where
  persistBackoff : Duration
  probesOut : ℕ
  orphanProbes : ℕ
  keepaliveSent : ℕ
  lastRecv : Instant
  released : Option Instant
  establishedSignaled : Bool
  finRecvdSignaled : Bool

/-- A connection's Fast Open state. A cookie's validity and the gate's room are inputs of the open
that needs them. -/
structure FastOpen where
  offered : Bool := false
  request : Option (List UInt8) := none
  synData : ℕ := 0
  cookie : Option (List UInt8) := none
  synDataLost : Bool := false
  dataAcked : Bool := false
  reply : Option (List UInt8) := none
  accepted : Bool := false
  slot : Bool := false

/-- A segment going out, with its codepoint. The state it went out in and the stream position it
acknowledges are kept beside it for the proofs. -/
structure Sent where
  seg : Segment
  ecn : IpEcn
  state : State
  rcvOff : ℕ

structure Conn (κ : Type) where
  cfg : ConnConfig
  now : Instant
  state : State
  closed : Bool
  snd : Snd
  rcv : Rcv
  opts : Options
  path : Path
  cc : κ
  rto : RtoState
  loss : Recovery
  timers : Timers
  usage : Usage
  pacer : Pacer
  acks : AckPolicy
  tune : Tune
  live : Liveness
  tfo : FastOpen
  ecn : Ecn
  rxEcn : IpEcn
  outgoing : List Sent
  /-- the source has panicked: a map range or slice of the receive buffer was out of bounds -/
  panicked : Bool

end PktKit.Vtcp
