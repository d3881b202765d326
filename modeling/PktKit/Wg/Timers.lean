import PktKit.Time

/-! # The timers of a peer

They only record what happened; polling them says what to send.
-/

namespace PktKit.Wg

def REKEY_TIMEOUT : Duration := .fromSecs 5
def MAX_TIMER_HANDSHAKES : ℕ := 90 / 5
def KEEPALIVE_TIMEOUT : Duration := .fromSecs 10
def REKEY_TIMEOUT_JITTER_MAX_MS : ℕ := 334

structure PeerTimers where
  attemptStarted : Option Instant := none
  attempts : ℕ := 0
  lastInitiation : Option Instant := none
  jitter : Duration := 0
  wantHandshake : Bool := false
  keepaliveDueSince : Option Instant := none
  replyDueSince : Option Instant := none
  lastSent : Option Instant := none
  persistentKeepalive : Option Duration := none

namespace PeerTimers

def initiationSent (t : PeerTimers) (now : Instant) (random : ℕ) : PeerTimers :=
  let t := if t.attemptStarted.isNone then { t with attemptStarted := some now, attempts := 0 } else t
  { t with
    lastInitiation := some now
    lastSent := some now
    wantHandshake := false
    jitter := .fromMillis (random % REKEY_TIMEOUT_JITTER_MAX_MS) }

def handshakeComplete (t : PeerTimers) : PeerTimers :=
  { t with attemptStarted := none, attempts := 0, wantHandshake := false, replyDueSince := none }

def packetSent (t : PeerTimers) (now : Instant) (data : Bool) : PeerTimers :=
  { t with
    lastSent := some now
    keepaliveDueSince := none
    replyDueSince := if data then some (t.replyDueSince.getD now) else t.replyDueSince }

def packetReceived (t : PeerTimers) (now : Instant) (data : Bool) : PeerTimers :=
  { t with
    replyDueSince := none
    keepaliveDueSince := if data then some (t.keepaliveDueSince.getD now) else t.keepaliveDueSince }

/-- Whether an initiation should go out now; `none` when the attempt has run out of retries. -/
def handshakeDue (t : PeerTimers) (now : Instant) : PeerTimers × Option Bool :=
  match t.attemptStarted with
  | some start =>
    let last := t.lastInitiation.getD start
    if now - last < REKEY_TIMEOUT + t.jitter then (t, some false)
    else if t.attempts > MAX_TIMER_HANDSHAKES then
      ({ t with
        attemptStarted := none, wantHandshake := false, replyDueSince := none
        keepaliveDueSince := none }, none)
    else ({ t with attempts := t.attempts + 1 }, some true)
  | none =>
    let overdue := t.replyDueSince.any fun since => KEEPALIVE_TIMEOUT + REKEY_TIMEOUT ≤ now - since
    let t := if overdue then { t with wantHandshake := true } else t
    let maySend := t.lastInitiation.all fun last => REKEY_TIMEOUT ≤ now - last
    (t, some (t.wantHandshake && maySend))

def keepaliveDue (t : PeerTimers) (now : Instant) : Bool :=
  let confirm := t.keepaliveDueSince.any fun since => KEEPALIVE_TIMEOUT ≤ now - since
  let persistent := t.persistentKeepalive.any fun every => t.lastSent.all fun last => every ≤ now - last
  confirm || persistent

end PeerTimers

end PktKit.Wg
