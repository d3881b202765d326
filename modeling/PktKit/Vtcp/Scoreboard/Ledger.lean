import PktKit.Foundations.Runs
import PktKit.Vtcp.Scoreboard.Acks

/-! # Runs of the scoreboard

The calls a connection makes on its scoreboard, in any order. The scoreboard
stays balanced through all of them, and as long as nothing is taken back every
byte is counted as delivered once.
-/

namespace PktKit.Vtcp
open Foundations.Runs Scoreboard

/-- A call on the scoreboard. Data is sent only at the end of what was sent. -/
inductive ScoreOp where
  | send (len : ℕ) (fin : Bool) (now : Instant) (tsval : Seq)
  | retransmit (seq : Seq) (len : ℕ) (now : Instant) (tsval : Seq)
  | beginAck
  | ack (a : Seq) (now : Instant) (ecr : Option Seq)
  | sack (blocks : List SackBlock) (now : Instant) (ecr : Option Seq)
  | rttSample (rtt : Duration) (now : Instant)
  | rateSample
  | onCe (len : ℕ)
  | markAppLimited
  | setTrackLosses (on : Bool)
  | takeLosses
  | reoWnd (dsack recovering exiting : Bool) (srtt : Duration)
  | detectLoss (now : Instant) (reo : Duration)
  | markLostOnRto (now : Instant) (reo : Duration)
  | markAllLost
  | markLongerLost (max : ℕ)
  | markHeadLost
  | markRangeLost (seq stop : Seq)
  | unmarkLost
  | clearSacks
  /-- a timeout that finds the receiver has dropped what it SACKed -/
  | renege (now : Instant) (reo : Duration)
  | setMss (mss : ℕ)
deriving DecidableEq, Repr

/-- A scoreboard and the bytes its `ack` and `sack` have reported delivered so far. -/
structure Ledger where
  board : Scoreboard
  reported : ℕ
deriving DecidableEq, Repr

namespace Ledger

def init (una : Seq) (now : Instant) (rack : Bool) : Ledger :=
  { board := (Scoreboard.new una now).setRack rack, reported := 0 }

/-- One call. Nothing is sent past a sequence space's worth of outstanding bytes. -/
def step (s : Ledger) : ScoreOp → Option Ledger
  | .send len fin now tsval =>
    if s.board.endOff + (if fin then 1 else len) < s.board.unaOff + 2 ^ 32 then
      some { s with board := s.board.onSend s.board.endSeq len fin now tsval }
    else none
  | .retransmit seq len now tsval => some { s with board := s.board.onRetransmit seq len now tsval }
  | .beginAck => some { s with board := s.board.beginAck }
  | .ack a now ecr =>
    let r := s.board.ack a now ecr
    some { board := r.1, reported := s.reported + r.2.delivered }
  | .sack blocks now ecr =>
    let r := s.board.sack blocks now ecr
    some { board := r.1, reported := s.reported + r.2.delivered }
  | .rttSample rtt now => some { s with board := s.board.rttSample rtt now }
  | .rateSample => some { s with board := s.board.rateSample.1 }
  | .onCe len => some { s with board := s.board.onCe len }
  | .markAppLimited => some { s with board := s.board.markAppLimited }
  | .setTrackLosses on => some { s with board := s.board.setTrackLosses on }
  | .takeLosses => some { s with board := s.board.takeLosses.1 }
  | .reoWnd dsack recovering exiting srtt =>
    some { s with board := (s.board.reoWnd dsack recovering exiting srtt).1 }
  | .detectLoss now reo => some { s with board := (s.board.detectLoss now reo).1 }
  | .markLostOnRto now reo => some { s with board := s.board.markLostOnRto now reo }
  | .markAllLost => some { s with board := s.board.markAllLost }
  | .markLongerLost max => some { s with board := s.board.markLongerLost max }
  | .markHeadLost => some { s with board := s.board.markHeadLost.1 }
  | .markRangeLost seq stop => some { s with board := (s.board.markRangeLost seq stop).1 }
  | .unmarkLost => some { s with board := s.board.unmarkLost }
  | .clearSacks => some { s with board := s.board.clearSacks }
  | .renege now reo => some { s with board := s.board.clearSacks.markLostOnRto now reo }
  | .setMss mss => some { s with board := s.board.setMss mss }

end Ledger

/-- Whether a call only makes edits that keep segments and transmission queue matched. -/
def ScoreOp.plain : ScoreOp → Bool
  | .send .. | .retransmit .. | .ack .. | .detectLoss .. | .unmarkLost | .clearSacks | .renege ..
  | .setMss _ => false
  | _ => true

namespace Ledger

variable {s t : Ledger} {op : ScoreOp} {m : Bool}

theorem step_edits (hb : Books s.board) (hp : op.plain = true) (hs : step s op = some t) :
    ∃ d, Edits m (s.board, {}) (t.board, d) ∧ t.reported = s.reported + d.delivered := by
  have quiet : ∀ (rate : Rate) {rack cache log}, rate.delivered = s.board.rate.delivered →
      t = { s with board := { s.board with rack := rack, sackCache := cache, rate := rate, lostLog := log } } →
      ∃ d, Edits m (s.board, {}) (t.board, d) ∧ t.reported = s.reported + d.delivered := by
    rintro rate rack cache log hr rfl
    exact ⟨{}, .single (.quiet hr), rfl⟩
  cases op with
  | send | retransmit | ack | detectLoss | unmarkLost | clearSacks | renege | setMss => cases hp
  | beginAck => exact quiet s.board.rate rfl (Option.some.inj hs).symm
  | rttSample rtt now => exact quiet s.board.rate rfl (Option.some.inj hs).symm
  | rateSample => exact quiet _ (Rate.sample_delivered _ _) (Option.some.inj hs).symm
  | onCe len => exact quiet (s.board.rate.onCe len) rfl (Option.some.inj hs).symm
  | markAppLimited => exact quiet (s.board.rate.markAppLimited s.board.pipe) rfl (Option.some.inj hs).symm
  | setTrackLosses on => exact quiet s.board.rate rfl (Option.some.inj hs).symm
  | takeLosses => exact quiet s.board.rate rfl (Option.some.inj hs).symm
  | reoWnd dsack recovering exiting srtt => exact quiet s.board.rate rfl (Option.some.inj hs).symm
  | sack blocks now ecr =>
    obtain rfl := Option.some.inj hs
    exact ⟨_, sack_edits blocks now ecr hb, rfl⟩
  | markLostOnRto now reo =>
    obtain rfl := Option.some.inj hs
    exact ⟨{}, markLostWhere_edits _ _, rfl⟩
  | markAllLost =>
    obtain rfl := Option.some.inj hs
    exact ⟨{}, markLostWhere_edits _ _, rfl⟩
  | markLongerLost max =>
    obtain rfl := Option.some.inj hs
    exact ⟨{}, markLostWhere_edits _ _, rfl⟩
  | markHeadLost =>
    obtain rfl := Option.some.inj hs
    exact ⟨{}, markLost_edits, rfl⟩
  | markRangeLost seq stop =>
    obtain rfl := Option.some.inj hs
    exact ⟨{}, markRangeLost_edits seq stop, rfl⟩

/-- The books balance, and less than a sequence space is outstanding. -/
structure Inv (s : Ledger) : Prop where
  books : Books s.board
  room : s.board.endOff < s.board.unaOff + 2 ^ 32

theorem Inv.of_same {b : Scoreboard} (hi : Inv s) (h : Books b ∧ b.endOff = s.board.endOff)
    (hu : b.unaOff = s.board.unaOff) (n : ℕ) : Inv ⟨b, n⟩ := by
  refine ⟨h.1, ?_⟩
  rw [h.2, hu]
  exact hi.room

theorem Inv.of_edits {d d' : Delivery} (hi : Inv s) (e : Edits m (s.board, d) (t.board, d')) : Inv t :=
  hi.of_same (Edits.books e hi.books) (Edits.frame e).2.1 _

theorem inv_init (una : Seq) (now : Instant) (rack : Bool) : Inv (init una now rack) := by
  obtain ⟨h1, h2⟩ : Books ((Scoreboard.new una now).setRack rack) ∧ _ :=
    (books_new una now).congr rfl rfl rfl rfl rfl rfl
  refine ⟨h1, ?_⟩
  change ((Scoreboard.new una now).setRack rack).endOff < 0 + 2 ^ 32
  rw [h2]
  exact Nat.two_pow_pos 32

theorem step_send {len : ℕ} {fin : Bool} {now : Instant} {tsval : Seq}
    (hs : step s (.send len fin now tsval) = some t) :
    s.board.endOff + (if fin then 1 else len) < s.board.unaOff + 2 ^ 32 ∧
      t = { s with board := s.board.onSend s.board.endSeq len fin now tsval } := by
  rw [step] at hs
  by_cases h : s.board.endOff + (if fin then 1 else len) < s.board.unaOff + 2 ^ 32
  · rw [if_pos h] at hs
    exact ⟨h, (Option.some.inj hs).symm⟩
  · rw [if_neg h] at hs
    cases hs

theorem inv_clearSacks (hi : Inv s) : Inv { s with board := s.board.clearSacks } :=
  hi.of_same (books_clearSacks hi.books) rfl _

theorem inv_step (hi : Inv s) (hs : step s op = some t) : Inv t := by
  cases op with
  | send len fin now tsval =>
    obtain ⟨hroom, rfl⟩ := step_send hs
    obtain ⟨h1, h2, -, h4⟩ := books_onSend hi.books hi.room len fin now tsval
    refine ⟨h1, ?_⟩
    rw [h2, h4]
    exact hroom
  | retransmit seq len now tsval =>
    obtain rfl := Option.some.inj hs
    exact hi.of_edits (onRetransmit_edits (d := {}) seq len now tsval)
  | ack a now ecr =>
    obtain rfl := Option.some.inj hs
    obtain ⟨h1, h2, h3⟩ := books_ack hi.books a now ecr
    have h4 := hi.room
    refine ⟨h1, ?_⟩
    simp only
    omega
  | detectLoss now reo =>
    obtain rfl := Option.some.inj hs
    exact hi.of_edits (detectLoss_edits (d := {}) now reo)
  | unmarkLost =>
    obtain rfl := Option.some.inj hs
    exact hi.of_same (books_unmarkLost hi.books) rfl _
  | clearSacks =>
    obtain rfl := Option.some.inj hs
    exact inv_clearSacks hi
  | renege now reo =>
    obtain rfl := Option.some.inj hs
    exact (inv_clearSacks hi).of_edits (markLostWhere_edits (m := false) (d := {}) _ _)
  | setMss mss =>
    obtain rfl := Option.some.inj hs
    exact hi.of_same (b := s.board.setMss mss) (hi.books.congr rfl rfl rfl rfl rfl rfl) rfl _
  | _ =>
    obtain ⟨d, e, -⟩ := step_edits (m := false) hi.books rfl hs
    exact hi.of_edits e

theorem inv_run {una : Seq} {now : Instant} {rack : Bool} {ops : List ScoreOp}
    (h : run step (init una now rack) ops = some s) : Inv s :=
  run_invariant (fun _ _ _ => inv_step) h (inv_init una now rack)

/-- Whatever is asked of a scoreboard, its segments tile what is outstanding, its counters are
those of its segments, and what is in the network is the rest. -/
theorem books_balance (una : Seq) (start : Instant) (rack : Bool) (ops : List ScoreOp) (s : Ledger)
    (h : run step (init una start rack) ops = some s) :
    Books s.board ∧
      s.board.unaOff + s.board.sacked + s.board.lost + s.board.pipe = s.board.endOff := by
  obtain ⟨hb, hroom⟩ := inv_run h
  have h1 := hb.sacked_add_lost_le
  refine ⟨hb, ?_⟩
  rw [pipe, Nat.mod_eq_of_lt (by omega)]
  omega

/-- Two aggregates, SACKs that cut the second, the rest of it lost and sent again in part, and an
ACK inside it. -/
def cutAggregate : List ScoreOp :=
  [.setMss 1000, .send 3000 false 1 10, .send 4000 false 2 11, .beginAck,
    .sack [⟨4294965296 + 4000, 4294965296 + 5000⟩, ⟨4294965296 + 5500, 4294965296 + 7000⟩] 12 none,
    .markAllLost, .retransmit 4294965296 2500 13 12, .send 0 true 14 12,
    .ack (4294965296 + 3500) 25 none, .detectLoss 26 1]

theorem books_balance_cutAggregate :
    ∃ s, run step (init 4294965296 0 true) cutAggregate = some s ∧ Books s.board ∧
      s.board.unaOff + s.board.sacked + s.board.lost + s.board.pipe = s.board.endOff ∧
      (s.board.segs.map fun s => (s.start, s.stop)) =
        [(3500, 4000), (4000, 5000), (5000, 6000), (6000, 7000), (7000, 7001)] := by
  refine exists_of_any (P := fun s => (s.board.segs.map fun s => (s.start, s.stop)) =
    [(3500, 4000), (4000, 5000), (5000, 6000), (6000, 7000), (7000, 7001)]) (by decide) fun s hs hsegs => ?_
  obtain ⟨h1, h2⟩ := books_balance _ _ _ _ s hs
  exact ⟨h1, h2, hsegs⟩

end Ledger

end PktKit.Vtcp
