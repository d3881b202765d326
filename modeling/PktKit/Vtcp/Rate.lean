import PktKit.Time

/-! # Delivery rate estimation

Each transmission takes a snapshot of what the connection had delivered by then;
when it is delivered, what was delivered since gives a rate sample. Times are
nanoseconds since the scoreboard's epoch, amounts are bytes.
-/

namespace PktKit.Vtcp

/-- What a transmission carries away of the connection's delivery state. -/
structure TxState where
  delivered : ℕ
  deliveredTime : ℕ
  firstSent : ℕ
  lost : ℕ
  deliveredCe : ℕ
  /-- bytes in flight just after it was sent, itself included -/
  txInFlight : ℕ
  appLimited : Bool
deriving DecidableEq, Repr, Inhabited

/-- A delivery rate sample: what one ACK tells about the path. -/
structure RateSample where
  deliveryRate : ℕ
  delivered : ℕ
  interval : Duration
  priorDelivered : ℕ
  isAppLimited : Bool
  txInFlight : ℕ
  lost : ℕ
  deliveredCe : ℕ
deriving DecidableEq, Repr, Inhabited

/-- What the newest segment delivered by the ACK being processed said. -/
structure Newest where
  xmit : ℕ
  stop : ℕ
  tx : TxState
  sendElapsed : ℕ
  ackElapsed : ℕ
deriving DecidableEq, Repr

/-- The connection's delivery state. -/
structure Rate where
  /-- bytes delivered over the connection's life, SACKed or cumulatively acknowledged -/
  delivered : ℕ := 0
  deliveredTime : ℕ := 0
  firstSent : ℕ := 0
  /-- while application-limited, `delivered` at which the bubble ends; zero otherwise -/
  appLimited : ℕ := 0
  lost : ℕ := 0
  deliveredCe : ℕ := 0
  newest : Option Newest := none
deriving DecidableEq, Repr

namespace Rate

def isAppLimited (r : Rate) : Bool := r.appLimited != 0

def onCe (r : Rate) (len : ℕ) : Rate := { r with deliveredCe := r.deliveredCe + len }

/-- A segment of `len` bytes goes out with `inFlight` bytes in flight before it: its snapshot. -/
def onSend (r : Rate) (now inFlight len : ℕ) : Rate × TxState :=
  let r := if inFlight = 0 then { r with firstSent := now, deliveredTime := now } else r
  (r, { delivered := r.delivered, deliveredTime := r.deliveredTime, firstSent := r.firstSent,
        lost := r.lost, deliveredCe := r.deliveredCe, txInFlight := min (inFlight + len) (2 ^ 32 - 1),
        appLimited := r.isAppLimited })

/-- `len` bytes of a segment were marked lost. -/
def onLost (r : Rate) (len : ℕ) : Rate := { r with lost := r.lost + len }

/-- `len` bytes were acknowledged without their segment being delivered whole. -/
def onPartial (r : Rate) (len : ℕ) : Rate := { r with delivered := r.delivered + len }

/-- A segment of `len` bytes ending at `stop`, last sent at `xmit` with snapshot `tx`, was
delivered. -/
def onDelivered (r : Rate) (tx : TxState) (xmit stop len now : ℕ) : Rate :=
  let r := { r with delivered := r.delivered + len, deliveredTime := now }
  let newest :=
    match r.newest with
    | none => true
    | some n => n.xmit < xmit || (xmit == n.xmit && n.stop < stop)
  if newest then
    { r with
      newest := some
        { xmit := xmit, stop := stop, tx := tx, sendElapsed := xmit - tx.firstSent,
          ackElapsed := now - tx.deliveredTime }
      firstSent := xmit }
  else r

/-- The sample of the ACK just processed, if it delivered anything. -/
def sample (r : Rate) (minRtt : Option ℕ) : Rate × Option RateSample :=
  let r := if r.appLimited ≠ 0 ∧ r.appLimited < r.delivered then { r with appLimited := 0 } else r
  match r.newest with
  | none => (r, none)
  | some n =>
    let interval := max n.sendElapsed n.ackElapsed
    let delivered := r.delivered - n.tx.delivered
    let trusted := 0 < interval ∧ minRtt.all (· ≤ interval)
    ({ r with newest := none },
      some
        { deliveryRate :=
            if trusted then min (delivered * 1000000000 / interval) (2 ^ 64 - 1) else 0
          delivered := delivered
          interval := interval
          priorDelivered := n.tx.delivered
          isAppLimited := n.tx.appLimited
          txInFlight := n.tx.txInFlight
          lost := r.lost - n.tx.lost
          deliveredCe := min (r.deliveredCe - n.tx.deliveredCe) delivered })

/-- What goes out until what is in flight now is delivered shows the application's pace. -/
def markAppLimited (r : Rate) (inFlight : ℕ) : Rate :=
  { r with appLimited := max (r.delivered + inFlight) 1 }

@[simp] theorem onSend_delivered (r : Rate) (now inFlight len : ℕ) :
    (r.onSend now inFlight len).1.delivered = r.delivered := by
  simp only [onSend]
  split <;> rfl

@[simp] theorem onDelivered_delivered (r : Rate) (tx : TxState) (xmit stop len now : ℕ) :
    (r.onDelivered tx xmit stop len now).delivered = r.delivered + len := by
  simp only [onDelivered, apply_ite Rate.delivered, ite_self]

@[simp] theorem sample_delivered (r : Rate) (minRtt : Option ℕ) :
    (r.sample minRtt).1.delivered = r.delivered := by
  simp only [sample]
  split_ifs <;> split <;> rfl

end Rate

end PktKit.Vtcp
