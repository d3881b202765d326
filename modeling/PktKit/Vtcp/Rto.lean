import PktKit.Time
import PktKit.Vtcp.SeqSpace

/-! # The retransmission timeout

SRTT, RTTVAR and the timeout made of them, with Karn's rule for the one segment timed. The
timeout never leaves its bounds: the record carries the proof.
-/

namespace PktKit.Vtcp

def DEFAULT_RTO : Duration := Duration.fromSecs 1
def MIN_RTO : Duration := Duration.fromMillis 200
def MAX_RTO : Duration := Duration.fromSecs 60

structure RtoState where
  srtt : Duration
  rttvar : Duration
  rto : Duration
  measured : Bool
  timing : Bool
  timeSent : Instant
  timeSeq : Seq
  min_le_rto : MIN_RTO ≤ rto
  rto_le_max : rto ≤ MAX_RTO

namespace RtoState

def new (now : Instant) : RtoState :=
  { srtt := 0, rttvar := 0, rto := DEFAULT_RTO, measured := false, timing := false, timeSent := now,
    timeSeq := 0, min_le_rto := by decide, rto_le_max := by decide }

end RtoState

end PktKit.Vtcp
