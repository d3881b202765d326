import PktKit.Vtcp.Scoreboard.Ledger

/-! # The FIN on the scoreboard

A FIN's segment is the last and one sequence number long. Everything but a transmission and a
cumulative ACK keeps it so, and keeps the interval the segments tile; so whatever the scoreboard
offers for a retransmission lies within what is outstanding, and short of the FIN unless it
is the FIN.
-/

namespace PktKit.Vtcp
open Foundations.Tilings

namespace Scoreboard

variable {b b' : Scoreboard} {m : Bool} {s t : Seg}

/-- A FIN's segment ends what was sent, and is one sequence number long. -/
def FinLast (b : Scoreboard) : Prop := ∀ s ∈ b.segs, s.fin = true → s.stop = b.endOff ∧ s.stop = s.start + 1

def HasFin (b : Scoreboard) : Prop := ∃ s ∈ b.segs, s.fin = true

/-- The books balance, and a FIN is where it belongs. -/
structure Sound (b : Scoreboard) : Prop where
  books : Books b
  finLast : FinLast b

/-- What keeps a scoreboard sound, the interval it tiles and its FIN. -/
def Keeps (b b' : Scoreboard) : Prop :=
  Sound b → Sound b' ∧ b'.una = b.una ∧ b'.unaOff = b.unaOff ∧ b'.endOff = b.endOff ∧ (HasFin b' ↔ HasFin b)

theorem Keeps.refl (b : Scoreboard) : Keeps b b := fun h => ⟨h, rfl, rfl, rfl, Iff.rfl⟩

theorem Keeps.trans {c : Scoreboard} (h : Keeps b b') (h' : Keeps b' c) : Keeps b c := by
  intro hb
  obtain ⟨g1, g2, g3, g4, g5⟩ := h hb
  obtain ⟨k1, k2, k3, k4, k5⟩ := h' g1
  exact ⟨k1, k2.trans g2, k3.trans g3, k4.trans g4, k5.trans g5⟩

/-- A stretch of segments may be replaced by one with the same FIN, or with none as before. -/
theorem FinLast.replace {pre mid post mid' : List Seg} (h : FinLast b) (hs : b.segs = pre ++ mid ++ post)
    (hs' : b'.segs = pre ++ mid' ++ post) (he : b'.endOff = b.endOff)
    (hin : ∀ t ∈ mid', t.fin = true → ∃ s ∈ mid, s.fin = true ∧ t.start = s.start ∧ t.stop = s.stop)
    (hout : (∃ s ∈ mid, s.fin = true) → ∃ t ∈ mid', t.fin = true) :
    FinLast b' ∧ (HasFin b' ↔ HasFin b) := by
  have hold : ∀ t ∈ b'.segs, t.fin = true →
      ∃ s ∈ b.segs, s.fin = true ∧ t.start = s.start ∧ t.stop = s.stop := by
    intro t ht hf
    rw [hs', List.mem_append, List.mem_append] at ht
    rcases ht with (ht | ht) | ht
    · exact ⟨t, by simp [hs, ht], hf, rfl, rfl⟩
    · obtain ⟨s, hsm, h1⟩ := hin t ht hf
      exact ⟨s, by simp [hs, hsm], h1⟩
    · exact ⟨t, by simp [hs, ht], hf, rfl, rfl⟩
  refine ⟨?_, ?_, ?_⟩
  · intro t ht hf
    obtain ⟨s, hsm, hsf, h1, h2⟩ := hold t ht hf
    rw [h1, h2, he]
    exact h s hsm hsf
  · rintro ⟨t, ht, hf⟩
    obtain ⟨s, hsm, hsf, -⟩ := hold t ht hf
    exact ⟨s, hsm, hsf⟩
  · rintro ⟨s, hsm, hsf⟩
    rw [hs, List.mem_append, List.mem_append] at hsm
    rcases hsm with (hsm | hsm) | hsm
    · exact ⟨s, by simp [hs', hsm], hsf⟩
    · obtain ⟨t, ht, hf⟩ := hout ⟨s, hsm, hsf⟩
      exact ⟨t, by simp [hs', ht], hf⟩
    · exact ⟨s, by simp [hs', hsm], hsf⟩

/-- One segment replaced by another of the same place and kind. -/
theorem FinLast.replaceOne {i : ℕ} (h : FinLast b) (hi : b.segs[i]? = some s)
    (hs' : b'.segs = b.segs.take i ++ [t] ++ b.segs.drop (i + 1)) (he : b'.endOff = b.endOff)
    (h1 : t.start = s.start) (h2 : t.stop = s.stop) (h3 : t.fin = s.fin) :
    FinLast b' ∧ (HasFin b' ↔ HasFin b) := by
  refine h.replace (segs_eq hi) hs' he ?_ ?_
  · intro u hu hf
    obtain rfl := List.mem_singleton.mp hu
    exact ⟨s, List.mem_singleton_self s, h3 ▸ hf, h1, h2⟩
  · rintro ⟨u, hu, hf⟩
    obtain rfl := List.mem_singleton.mp hu
    exact ⟨t, List.mem_singleton_self t, h3.trans hf⟩

theorem Edit.finLast {x y : Scoreboard × Delivery} (h : Edit m x y) (hb : Sound x.1) :
    FinLast y.1 ∧ (HasFin y.1 ↔ HasFin x.1) := by
  have he := (h.books hb.books).2
  cases h with
  | @split _ b d i s cut hs h1 h2 =>
    -- a FIN is too short to be cut
    have hf : s.fin = false := by
      by_contra hf
      have := hb.finLast s (List.mem_of_getElem? hs) (by simpa using hf)
      omega
    have hsp : (b.split i cut).segs =
        b.segs.take i ++ [{ s with stop := cut }, { s with start := cut }] ++ b.segs.drop (i + 1) := by
      simp [Scoreboard.split, hs, replaceAt]
    exact hb.finLast.replace (segs_eq hs) hsp he (by simp [hf]) (by simp [hf])
  | @lose _ b d i s hs h1 h2 =>
    exact hb.finLast.replaceOne (t := { s with lost := true }) hs
      (congrArg (fun r => r.1.segs) (markLost_eq hs h1 h2)) he rfl rfl rfl
  | @sack _ b d i s now ecr hs h1 =>
    obtain ⟨rate, rack, -, heq⟩ := sackAt_eq hs now ecr d
    exact hb.finLast.replaceOne (t := { s with sacked := true, lost := false }) hs
      (congrArg (fun r => r.1.segs) heq) he rfl rfl rfl
  | quiet _ => exact ⟨fun s hm hf => he ▸ hb.finLast s hm hf, Iff.rfl⟩
  | @join b d i hm =>
    simp only [mergeable] at hm
    split at hm
    · rename_i a c ha hc
      simp only [Bool.and_eq_true, beq_iff_eq, Bool.not_eq_true'] at hm
      obtain ⟨⟨⟨-, hfi⟩, -⟩, hfi0⟩ := hm
      have hsegs : b.segs = b.segs.take i ++ [a, c] ++ b.segs.drop (i + 2) := by
        have h1 := segs_eq ha
        have h2 : b.segs.drop (i + 1) = c :: b.segs.drop (i + 2) := by
          obtain ⟨hi, rfl⟩ := List.getElem?_eq_some_iff.mp hc
          exact List.drop_eq_getElem_cons hi
        rw [h2] at h1
        simpa using h1
      have hmg : (b.mergeNext i).segs = b.segs.take i ++
          [{ a with stop := c.stop, retrans := a.retrans || c.retrans }] ++ b.segs.drop (i + 2) := by
        simp [mergeNext, ha, hc]
      refine hb.finLast.replace hsegs hmg he ?_ ?_
      · simp [hfi0]
      · simp [hfi0, ← hfi]
    · cases hm
  | @resend b d i s now tsval hs =>
    obtain ⟨rate, snapshot, -, heq⟩ := resendAt_eq hs now tsval
    exact hb.finLast.replaceOne (s := s) (t := { s with
      lost := false, retrans := true, xmit := b.ns now, tsval := tsval, tx := b.nextTx, rate := snapshot })
      hs (congrArg Scoreboard.segs heq) he rfl rfl rfl
  | queue => exact ⟨fun s hm hf => he ▸ hb.finLast s hm hf, Iff.rfl⟩

theorem Edits.keeps {x y : Scoreboard × Delivery} (h : Edits m x y) : Keeps x.1 y.1 := by
  induction h with
  | refl => exact Keeps.refl _
  | tail _ he ih =>
    refine ih.trans fun hb => ?_
    obtain ⟨h1, h2⟩ := he.books hb.books
    obtain ⟨h3, h4⟩ := he.finLast hb
    exact ⟨⟨h1, h3⟩, he.frame.1, he.frame.2.1, h2, h4⟩

section

variable (b)

theorem keeps_onRetransmit (seq : Seq) (len : ℕ) (now : Instant) (tsval : Seq) :
    Keeps b (b.onRetransmit seq len now tsval) :=
  Edits.keeps (onRetransmit_edits (d := {}) seq len now tsval)

end

/-! ## Transmissions and ACKs -/

/-! ## What is offered for a retransmission -/

end Scoreboard

end PktKit.Vtcp
