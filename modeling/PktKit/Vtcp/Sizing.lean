import PktKit.Time
import PktKit.Vtcp.SeqSpace

/-! # Sizing the buffers and validating the window

What the application reads in a round trip sizes the receive buffer, the congestion
window sizes the send buffer, and what the path has recently carried says whether that
window can be trusted. The source's saturating products of sizes are plain ones here:
every use takes the minimum with a configured size.
-/

namespace PktKit.Vtcp

/-- Receive-side dynamic right-sizing. -/
structure RcvSpace where
  /-- bytes the application has read, in all -/
  copied : ℕ
  /-- `copied` when the current measurement began -/
  mark : ℕ
  time : Instant
  /-- the most read in one measurement so far -/
  space : ℕ
  rtt : Option Duration
  rttMark : Option (Seq × Instant)
deriving DecidableEq, Repr

namespace RcvSpace

def new (space : ℕ) (now : Instant) : RcvSpace :=
  { copied := 0, mark := 0, time := now, space := max space 1, rtt := none, rttMark := none }

end RcvSpace

/-- The pipeACK variable: the most data acknowledged within a round trip over the last sampling
period. The buckets in use are a list, oldest first. -/
structure PipeAck where
  defined : Bool
  cur : Option (Instant × Seq)
  buckets : List (Instant × ℕ)
deriving DecidableEq, Repr

namespace PipeAck

def new : PipeAck := { defined := false, cur := none, buckets := [] }

end PipeAck

end PktKit.Vtcp
