import PktKit.Vtcp.Scoreboard.Ledger

/-! # Delivered bytes are counted once

While no SACK is taken back and no ACK covers what was not sent, the bytes
counted as delivered are those cumulatively acknowledged and those SACKed.
-/

namespace PktKit.Vtcp
open Foundations.Runs Scoreboard

namespace Scoreboard

variable {m : Bool} {x y : Scoreboard × Delivery}

theorem Edit.credit (h : Edit m x y) :
    y.1.rate.delivered + x.1.sacked = x.1.rate.delivered + y.1.sacked := by
  cases h with
  | split hs _ _ => simp [Scoreboard.split, hs, replaceAt]
  | lose hs h1 h2 => simp [markLost_eq hs h1 h2, replaceAt, Rate.onLost]
  | sack hs _ =>
    obtain ⟨rate, rack, hr, heq⟩ := sackAt_eq hs _ _ _
    rw [heq]
    simp only
    omega
  | quiet hr => simp [hr]
  | join hm =>
    simp only [mergeNext]
    split <;> simp
  | resend hs =>
    obtain ⟨rate, snapshot, hr, heq⟩ := resendAt_eq hs _ _
    rw [heq]
    simp [hr]
  | queue => simp

theorem Edit.report (h : Edit m x y) (hb : Books x.1)
    (hroom : x.2.delivered + (x.1.endOff - x.1.unaOff - x.1.sacked) < 2 ^ 32) :
    y.2.delivered + x.1.sacked = x.2.delivered + y.1.sacked := by
  have hle := (h.books hb).1.sacked_add_lost_le
  rw [(h.books hb).2, h.frame.2.1] at hle
  cases h with
  | split hs _ _ => simp [Scoreboard.split, hs, replaceAt]
  | lose hs h1 h2 => simp [markLost_eq hs h1 h2, replaceAt]
  | sack hs _ =>
    obtain ⟨rate, rack, hr, heq⟩ := sackAt_eq hs _ _ _
    rw [heq] at hle ⊢
    simp only [Delivery.note_delivered] at hle hroom ⊢
    rw [Delivery.addBytes_delivered (by omega)]
    omega
  | quiet hr => rfl
  | join hm =>
    simp only [mergeNext]
    split <;> simp
  | resend hs =>
    obtain ⟨rate, snapshot, hr, heq⟩ := resendAt_eq hs _ _
    rw [heq]
  | queue => rfl

theorem Edits.credit (h : Edits m x y) :
    y.1.rate.delivered + x.1.sacked = x.1.rate.delivered + y.1.sacked := by
  induction h with
  | refl => rfl
  | tail _ he ih =>
    have := he.credit
    omega

theorem Edits.report (h : Edits m x y) (hb : Books x.1)
    (hroom : x.2.delivered + (x.1.endOff - x.1.unaOff - x.1.sacked) < 2 ^ 32) :
    y.2.delivered + x.1.sacked = x.2.delivered + y.1.sacked := by
  induction h with
  | refl => rfl
  | tail hxy he ih =>
    obtain ⟨hb', hend⟩ := Edits.books hxy hb
    have hu := (Edits.frame hxy).2.1
    have hle := hb.sacked_add_lost_le
    have hle' := hb'.sacked_add_lost_le
    have := he.report hb' (by omega)
    omega

end Scoreboard

namespace Ledger

variable {s t : Ledger} {op : ScoreOp}

/-- Nothing SACKed is taken back, and no ACK covers what was not sent. -/
def Honest (s : Ledger) : ScoreOp → Prop
  | .ack a _ _ => seqAfter a s.board.una = true → s.board.off a ≤ s.board.endOff
  | .clearSacks | .renege .. => False
  | _ => True

instance (s : Ledger) (op : ScoreOp) : Decidable (Honest s op) := by
  unfold Honest
  split <;> infer_instance

/-- What is counted and what was reported is what was acknowledged and what is SACKed. -/
structure Counted (s : Ledger) : Prop extends Inv s where
  counted : s.board.rate.delivered = s.board.unaOff + s.board.sacked
  reported : s.reported = s.board.unaOff + s.board.sacked

theorem Counted.of_edits {m : Bool} {d' : Delivery} (h : Counted s)
    (e : Edits m (s.board, {}) (t.board, d')) (hr : t.reported = s.reported + d'.delivered) : Counted t := by
  have hroom := h.room
  have h1 := Edits.credit e
  have h2 := Edits.report e h.books (by simp only; omega)
  have h3 := (Edits.frame e).2.1
  have h4 := h.counted
  have h5 := h.reported
  simp only at h1 h2 h3
  refine ⟨h.toInv.of_edits e, by omega, by omega⟩

theorem counted_ack (h : Counted s) {a : Seq} {now : Instant} {ecr : Option Seq}
    (ha : Honest s (.ack a now ecr)) (hs : step s (.ack a now ecr) = some t) : Counted t := by
  have hinv := inv_step h.toInv hs
  obtain rfl := Option.some.inj hs
  cases hafter : seqAfter a s.board.una with
  | false =>
    simp only [ack_of_not_after hafter] at hinv ⊢
    exact ⟨hinv, h.counted, h.reported⟩
  | true =>
    have hle := ha hafter
    obtain ⟨c, hc, heq⟩ := ack_spec h.books hafter now ecr
    have hroom := h.room
    have h1 := hc.credit
    have h2 := hc.report (by simp only; omega)
    have h3 := h.counted
    have h4 := h.reported
    have h5 : s.board.unaOff ≤ s.board.off a := Nat.le_add_right _ _
    rw [Nat.min_eq_left hle] at h1 h2
    refine ⟨hinv, ?_, ?_⟩
    · simp only [heq]
      omega
    · simp only [heq]
      simp only at h2
      omega

theorem counted_step (h : Counted s) (hh : Honest s op) (hs : step s op = some t) : Counted t := by
  cases op with
  | send len fin now tsval =>
    have hinv := inv_step h.toInv hs
    obtain ⟨-, rfl⟩ := step_send hs
    by_cases hlen : (if fin then 1 else len) = 0
    · have hsame : s.board.onSend s.board.endSeq len fin now tsval = s.board := by simp [onSend, hlen]
      rw [hsame] at hinv ⊢
      exact h
    · obtain ⟨rate, snapshot, hr, heq⟩ := onSend_eq h.books h.room len fin now tsval hlen
      rw [heq] at hinv ⊢
      exact ⟨hinv, hr.trans h.counted, h.reported⟩
  | retransmit seq len now tsval =>
    obtain rfl := Option.some.inj hs
    exact h.of_edits (onRetransmit_edits (d := {}) seq len now tsval) rfl
  | ack a now ecr => exact counted_ack h hh hs
  | detectLoss now reo =>
    obtain rfl := Option.some.inj hs
    exact h.of_edits (detectLoss_edits (d := {}) now reo) rfl
  | clearSacks => exact hh.elim
  | renege now reo => exact hh.elim
  | unmarkLost =>
    have hinv := inv_step h.toInv hs
    obtain rfl := Option.some.inj hs
    exact ⟨hinv, h.counted, h.reported⟩
  | setMss mss =>
    have hinv := inv_step h.toInv hs
    obtain rfl := Option.some.inj hs
    exact ⟨hinv, h.counted, h.reported⟩
  | _ =>
    obtain ⟨d, e, hr⟩ := step_edits (m := false) h.books rfl hs
    exact h.of_edits e hr

/-- Of an honest run, the bytes counted as delivered and the bytes reported so are those
acknowledged and those SACKed. -/
theorem delivered_once (una : Seq) (start : Instant) (rack : Bool) (ops : List ScoreOp) (s : Ledger)
    (h : run step (init una start rack) ops = some s)
    (hh : ∀ js op ks t, ops = js ++ op :: ks → run step (init una start rack) js = some t → Honest t op) :
    s.board.rate.delivered = s.board.unaOff + s.board.sacked ∧
      s.reported = s.board.unaOff + s.board.sacked := by
  have hc : Counted s := run_invariant_of (C := Honest) (fun _ _ _ => counted_step) h
    ⟨inv_init una start rack, rfl, rfl⟩ hh
  exact ⟨hc.counted, hc.reported⟩

/-- Overlapping and repeated SACK blocks, a retransmission of what they leave, and ACKs inside and
past what was SACKed. -/
def overlappingSacks : List ScoreOp :=
  [.setMss 1000, .send 4000 false 1 10, .send 2000 false 2 11, .beginAck,
    .sack [⟨1000, 2500⟩, ⟨2000, 4500⟩] 12 none, .sack [⟨1000, 2500⟩, ⟨3000, 6000⟩] 13 none,
    .markAllLost, .retransmit 0 1000 14 12, .ack 1500 25 none, .ack 6000 26 none]

theorem delivered_once_overlappingSacks :
    ∃ s, run step (init 0 0 true) overlappingSacks = some s ∧ s.board.rate.delivered = 6000 ∧
      s.reported = 6000 := by
  refine exists_of_any (P := fun s => s.board.unaOff = 6000 ∧ s.board.sacked = 0) (by decide) ?_
  rintro s hs ⟨hu, hsacked⟩
  obtain ⟨h1, h2⟩ := delivered_once _ _ _ _ s hs (along_sound (by decide))
  exact ⟨by omega, by omega⟩

end Ledger

end PktKit.Vtcp
