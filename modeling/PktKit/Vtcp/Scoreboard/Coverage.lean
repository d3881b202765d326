import PktKit.Vtcp.Scoreboard.Acks

/-! # What RACK's queue covers

Every segment in flight should lie within a queued record of its own
transmission, for a scan of the queue to find it lost. A transmission queues its
own record; an edit or a cumulative ACK leaves parts of what was covered.
-/

namespace PktKit.Vtcp
open Foundations.Tilings

namespace Scoreboard

/-- The segment lies within a record of its own transmission. -/
def Covered (q : List TxRec) (s : Seg) : Prop := ∃ r ∈ q, r.tx = s.tx ∧ r.start ≤ s.start ∧ s.stop ≤ r.stop

instance (q : List TxRec) (s : Seg) : Decidable (Covered q s) := inferInstanceAs (Decidable (∃ r ∈ q, _))

def Covers (q : List TxRec) (l : List Seg) : Prop := ∀ s ∈ l, s.inFlight = true → Covered q s

variable {b b' : Scoreboard} {d d' : Delivery} {q q' : List TxRec} {l l' : List Seg} {s t : Seg} {i j cut : ℕ}

theorem Covered.mono (h : Covered q s) (hq : q ⊆ q') : Covered q' s := by
  obtain ⟨r, hr, h1⟩ := h
  exact ⟨r, hq hr, h1⟩

theorem Covered.part (h : Covered q s) (htx : t.tx = s.tx) (h1 : s.start ≤ t.start) (h2 : t.stop ≤ s.stop) :
    Covered q t := by
  obtain ⟨r, hr, h3, h4, h5⟩ := h
  exact ⟨r, hr, h3.trans htx.symm, h4.trans h1, h2.trans h5⟩

def PartsOf (l' l : List Seg) : Prop :=
  ∀ t ∈ l', t.inFlight = true → ∃ s ∈ l, s.inFlight = true ∧ t.tx = s.tx ∧ s.start ≤ t.start ∧ t.stop ≤ s.stop

theorem Covers.parts (h : Covers q l) (hl : PartsOf l' l) : Covers q l' := by
  intro t ht hf
  obtain ⟨s, hs, hsf, htx, h1, h2⟩ := hl t ht hf
  exact (h s hs hsf).part htx h1 h2

theorem partsOf_replaceAt (hs : b.segs[i]? = some s) {mid : List Seg} (hm : PartsOf mid [s]) :
    PartsOf (b.segs.take i ++ mid ++ b.segs.drop (i + 1)) b.segs := by
  intro t ht hf
  simp only [List.mem_append] at ht
  rcases ht with (ht | ht) | ht
  · exact ⟨t, List.mem_of_mem_take ht, hf, rfl, le_rfl, le_rfl⟩
  · obtain ⟨u, hu, h1⟩ := hm t ht hf
    rw [List.mem_singleton.mp hu] at h1
    exact ⟨s, List.mem_of_getElem? hs, h1⟩
  · exact ⟨t, List.mem_of_mem_drop ht, hf, rfl, le_rfl, le_rfl⟩

/-- The edits that do not disturb the match leave parts of what was in flight, and the queue. -/
theorem Edit.parts {x y : Scoreboard × Delivery} (h : Edit false x y) :
    PartsOf y.1.segs x.1.segs ∧ y.1.tq = x.1.tq := by
  generalize hm : false = m at h
  cases h with
  | split hs h1 h2 =>
    simp only [Scoreboard.split, hs]
    refine ⟨partsOf_replaceAt hs ?_, rfl⟩
    simp only [PartsOf, List.mem_cons, List.not_mem_nil, or_false]
    rintro t (rfl | rfl) hf
    · exact ⟨_, rfl, hf, rfl, le_rfl, h2.le⟩
    · exact ⟨_, rfl, hf, rfl, h1.le, le_rfl⟩
  | lose hs h1 h2 =>
    rw [markLost_eq hs h1 h2]
    refine ⟨partsOf_replaceAt hs ?_, rfl⟩
    simp [PartsOf, Seg.inFlight]
  | sack hs h1 =>
    obtain ⟨rate, rack, -, heq⟩ := sackAt_eq hs _ _ _
    rw [heq]
    refine ⟨partsOf_replaceAt hs ?_, rfl⟩
    simp [PartsOf, Seg.inFlight]
  | quiet _ => exact ⟨fun t ht hf => ⟨t, ht, hf, rfl, le_rfl, le_rfl⟩, rfl⟩
  | join _ => cases hm
  | resend _ => cases hm
  | queue => cases hm

theorem Edits.covers {x y : Scoreboard × Delivery} (h : Edits false x y) (hq : Covers q x.1.segs) :
    Covers q y.1.segs := by
  induction h with
  | refl => exact hq
  | tail _ he ih => exact ih.parts he.parts.1

theorem Edits.tq {x y : Scoreboard × Delivery} (h : Edits false x y) : y.1.tq = x.1.tq := by
  induction h with
  | refl => rfl
  | tail _ he ih => exact he.parts.2.trans ih

/-- A transmission queues its own record. -/
theorem covers_onSend (hb : Books b) (hroom : b.endOff < b.unaOff + 2 ^ 32) (hr : b.rackOn = true)
    (hc : Covers b.tq b.segs) (len : ℕ) (fin : Bool) (now : Instant) (tsval : Seq) :
    Covers (b.onSend b.endSeq len fin now tsval).tq (b.onSend b.endSeq len fin now tsval).segs ∧
      (b.onSend b.endSeq len fin now tsval).rackOn = true := by
  by_cases hlen : (if fin then 1 else len) = 0
  · have : b.onSend b.endSeq len fin now tsval = b := by simp [onSend, hlen]
    rw [this]
    exact ⟨hc, hr⟩
  · obtain ⟨rate, snapshot, -, heq⟩ := onSend_eq hb hroom len fin now tsval hlen
    simp only [heq, hr, if_true, and_true]
    intro s hs hf
    rcases List.mem_append.mp hs with hs | hs
    · exact (hc s hs hf).mono (List.subset_append_left _ _)
    · rw [List.mem_singleton.mp hs]
      exact ⟨_, List.mem_append_right _ (List.mem_singleton_self _), rfl, le_rfl, le_rfl⟩

/-- What a cumulative ACK leaves was there before. -/
theorem covers_ack (hb : Books b) (hc : Covers b.tq b.segs) (a : Seq) (now : Instant) (ecr : Option Seq) :
    Covers (b.ack a now ecr).1.tq (b.ack a now ecr).1.segs ∧ (b.ack a now ecr).1.rackOn = b.rackOn := by
  cases ha : seqAfter a b.una with
  | false =>
    rw [ack_of_not_after ha]
    exact ⟨hc, rfl⟩
  | true =>
    obtain ⟨c, h, heq⟩ := ack_spec hb ha now ecr
    obtain ⟨_, _, _, _, _, _, _, hf⟩ := h.frame
    rw [heq]
    refine ⟨?_, by rw [hf]⟩
    have hq : c.tq = b.tq := by rw [hf]
    intro t ht htf
    obtain ⟨s, hs, st, hst, rfl⟩ := h.left t ht
    rw [hq]
    exact (hc s hs htf).part rfl hst le_rfl

theorem Books.next_start (hb : Books b) (hs : b.segs[i]? = some s) (ht : b.segs[i + 1]? = some t) :
    t.start = s.stop := by
  obtain ⟨hi, rfl⟩ := List.getElem?_eq_some_iff.mp ht
  have h := hb.tiles
  rw [segs_eq hs, List.drop_eq_getElem_cons hi] at h
  obtain ⟨_, _, -, h1, h2⟩ := h.split
  obtain ⟨-, -, rfl⟩ := h1
  exact h2.1

/-- Segment `i` is about to go out again up to `cut`: all others are covered, and so is what of it
would be left past `cut`. -/
structure Pending (b : Scoreboard) (i cut : ℕ) : Prop where
  others : Covers b.tq (b.segs.take i ++ b.segs.drop (i + 1))
  rest : ∀ s, b.segs[i]? = some s → s.inFlight = true →
    ∃ r ∈ b.tq, r.tx = s.tx ∧ r.start ≤ cut ∧ s.stop ≤ r.stop

theorem Covers.pending (hc : Covers b.tq b.segs) (cut : ℕ) (hs : b.segs[i]? = some s) (hcut : s.start ≤ cut) :
    Pending b i cut where
  others := fun t ht => hc t ((List.mem_append.mp ht).elim List.mem_of_mem_take List.mem_of_mem_drop)
  rest := by
    intro s' hs' hf
    obtain rfl := Option.some.inj (hs.symm.trans hs')
    obtain ⟨r, hr, h1, h2, h3⟩ := hc s (List.mem_of_getElem? hs) hf
    exact ⟨r, hr, h1, h2.trans hcut, h3⟩

theorem take_drop_around {pre post : List Seg} (h : pre.length = i) :
    (pre ++ s :: post).take i ++ (pre ++ s :: post).drop (i + 1) = pre ++ post := by
  subst h
  simp [List.drop_append]

theorem Pending.mergeNext (hb : Books b) (h : Pending b i cut) (hs : b.segs[i]? = some s)
    (hlt : s.stop < cut) (hm : b.mergeable i = true) : Pending (b.mergeNext i) i cut := by
  obtain ⟨hi, -⟩ := List.getElem?_eq_some_iff.mp hs
  have hlen : (b.segs.take i).length = i := by simp; omega
  simp only [mergeable, hs] at hm
  split at hm
  · rename_i a c ha hc
    obtain rfl := Option.some.inj ha
    simp only [Bool.and_eq_true, beq_iff_eq, Bool.not_eq_true'] at hm
    obtain ⟨⟨⟨⟨⟨htx, hsk⟩, hlo⟩, -⟩, -⟩, -⟩ := hm
    have hnext := hb.next_start hs hc
    have hdrop : ∀ t ∈ b.segs.drop (i + 2), t ∈ b.segs.drop (i + 1) := fun t ht =>
      List.mem_of_mem_drop (by rwa [List.drop_drop] : t ∈ (b.segs.drop (i + 1)).drop 1)
    have hmem : c ∈ b.segs.drop (i + 1) := List.mem_of_getElem? (i := 0) (by simpa using hc)
    simp only [Scoreboard.mergeNext, hs, hc]
    constructor
    · rw [take_drop_around hlen]
      intro t ht
      exact h.others t (List.mem_append.mpr ((List.mem_append.mp ht).imp_right (hdrop t)))
    · intro s' hs' hf
      rw [List.getElem?_append_right (by omega), hlen] at hs'
      simp only [Nat.sub_self, List.getElem?_cons_zero, Option.some.injEq] at hs'
      subst hs'
      have hcf : c.inFlight = true := by simpa [Seg.inFlight, hsk, hlo] using hf
      obtain ⟨r, hr, h1, h2, h3⟩ := h.others c (List.mem_append_right _ hmem) hcf
      exact ⟨r, hr, h1.trans htx.symm, by omega, h3⟩
  · cases hm

theorem Pending.mergeLoop (n : ℕ) (hb : Books b) (h : Pending b i cut) : Pending (mergeLoop n b i cut) i cut := by
  induction n generalizing b with
  | zero => exact h
  | succ n ih =>
    rw [Scoreboard.mergeLoop]
    split
    · exact h
    · rename_i s hs
      split
      · rename_i hc
        simp only [Bool.and_eq_true, decide_eq_true_eq] at hc
        exact ih (books_mergeNext hb hc.2).1 (h.mergeNext hb hs hc.1 hc.2)
      · exact h

/-- Cut there, and sent again, the segment is covered by its own record and the rest by theirs. -/
theorem Pending.resend (h : Pending b i cut) (hs : b.segs[i]? = some s) (hr : b.rackOn = true)
    (now : Instant) (tsval : Seq) :
    Covers ((b.splitAfter i cut).resendAt i now tsval).tq ((b.splitAfter i cut).resendAt i now tsval).segs := by
  have key : ∀ (c : Scoreboard) (t : Seg), c.segs[i]? = some t → c.rackOn = true →
      Covers c.tq (c.segs.take i ++ c.segs.drop (i + 1)) →
      Covers (c.resendAt i now tsval).tq (c.resendAt i now tsval).segs := by
    intro c t hc hrc hcov u hu hf
    obtain ⟨rate, snapshot, -, heq⟩ := resendAt_eq hc now tsval
    simp only [heq, hrc, if_true, List.mem_append, List.mem_singleton] at hu ⊢
    rcases hu with (hu | rfl) | hu
    · exact (hcov u (List.mem_append_left _ hu) hf).mono (List.subset_append_left _ _)
    · exact ⟨_, List.mem_append_right _ (List.mem_singleton_self _), rfl, le_rfl, le_rfl⟩
    · exact (hcov u (List.mem_append_right _ hu) hf).mono (List.subset_append_left _ _)
  obtain ⟨hi, -⟩ := List.getElem?_eq_some_iff.mp hs
  have hlen : (b.segs.take i).length = i := by simp; omega
  by_cases hlt : (cut < s.stop && !s.fin) = true
  · have hsplit : b.splitAfter i cut = b.split i cut := by simp only [splitAfter, hs, hlt, if_true]
    rw [hsplit]
    refine key _ _ (split_getElem? hs cut).1 (by simpa [Scoreboard.split, hs, replaceAt] using hr) ?_
    simp only [Scoreboard.split, hs, replaceAt, List.append_assoc, List.cons_append, List.nil_append]
    rw [take_drop_around hlen]
    intro t ht hf
    rcases List.mem_append.mp ht with ht | ht
    · exact h.others t (List.mem_append_left _ ht) hf
    · rcases List.mem_cons.mp ht with rfl | ht
      · exact h.rest s hs hf
      · exact h.others t (List.mem_append_right _ ht) hf
  · have hsame : b.splitAfter i cut = b := by simp only [splitAfter, hs, hlt]; rfl
    rw [hsame]
    exact key b s hs hr h.others

/-- A retransmission queues a record of its own, and leaves the rest of its segment under the old
one. -/
theorem covers_onRetransmit (hb : Books b) (hr : b.rackOn = true) (hc : Covers b.tq b.segs) (seq : Seq)
    (len : ℕ) (now : Instant) (tsval : Seq) :
    Covers (b.onRetransmit seq len now tsval).tq (b.onRetransmit seq len now tsval).segs := by
  simp only [onRetransmit]
  split
  · exact hc
  · rename_i i hi
    obtain ⟨s, hs, h1, h2⟩ := idx_spec hi
    obtain ⟨e1, hs1⟩ := splitBefore_edits (m := false) (d := {}) hs h1 h2
    have hc1 := Edits.covers e1 hc
    have hq1 := Edits.tq e1
    have hb1 := (Edits.books e1 hb).1
    have hr1 := (Edits.frame e1).2.2.2.2
    simp only at hq1 hr1 hb1 hc1
    rw [← hq1] at hc1
    have hp := (hc1.pending (b.off seq + max len 1) hs1 (by simp only; omega)).mergeLoop
      (b.splitBefore i (b.off seq)).1.segs.length hb1
    obtain ⟨e2, s2, hs2, -⟩ := mergeLoop_edits (d := {}) (b.splitBefore i (b.off seq)).1.segs.length
      (b.off seq + max len 1) hs1
    have hr2 := (Edits.frame e2).2.2.2.2
    exact hp.resend hs2 (by simp only at hr2; rw [hr2, hr1, hr]) now tsval

end Scoreboard

end PktKit.Vtcp
