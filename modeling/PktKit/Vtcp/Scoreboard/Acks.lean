import PktKit.Vtcp.Scoreboard.Edits

/-! # Transmissions and cumulative ACKs

A transmission adds a segment at the end, a cumulative ACK takes segments off the
front and credits what had not been SACKed. Together with the edits that is all
that happens to the segments.
-/

namespace PktKit.Vtcp
open Foundations.OrdSets Foundations.Tilings Foundations.Wrapping

namespace Scoreboard

variable {b b' : Scoreboard} {d d' : Delivery} {s : Seg} {l l' : List Seg}

/-- The counters of `b` say what the segments `l` say. -/
structure Counts (l : List Seg) (b : Scoreboard) : Prop where
  sacked_eq : b.sacked = bytesOf Seg.sacked l
  sackedSegs_eq : b.sackedSegs = l.countP Seg.sacked
  lost_eq : b.lost = bytesOf Seg.lost l
  mem_lostSet : ∀ x, x ∈ b.lostSet ↔ LostStart l x
  sorted : b.lostSet.Pairwise (· < ·)

theorem Books.counts (h : Books b) : Counts b.segs b :=
  ⟨h.sacked_eq, h.sackedSegs_eq, h.lost_eq, h.mem_lostSet, h.sorted⟩

theorem seqOf_eq {x : ℕ} (h : b.unaOff ≤ x) : b.seqOf x = b.una + BitVec.ofNat 32 (x - b.unaOff) := by
  rw [seqOf, if_pos h]

/-- Offsets and sequence numbers agree over less than the whole sequence space. -/
theorem off_seqOf {x : ℕ} (h1 : b.unaOff ≤ x) (h2 : x < b.unaOff + 2 ^ 32) : b.off (b.seqOf x) = x := by
  have hsub : b.una + BitVec.ofNat 32 (x - b.unaOff) - b.una = BitVec.ofNat 32 (x - b.unaOff) := by
    rw [BitVec.add_comm, BitVec.add_sub_cancel]
  rw [seqOf_eq h1, off, hsub, BitVec.toNat_ofNat, Nat.mod_eq_of_lt (by omega)]
  omega

/-- A transmission of `len` bytes, one for a FIN, at the end of what was sent. -/
theorem onSend_eq (hb : Books b) (hroom : b.endOff < b.unaOff + 2 ^ 32) (len : ℕ) (fin : Bool)
    (now : Instant) (tsval : Seq) (hlen : (if fin then 1 else len) ≠ 0) :
    ∃ rate snapshot, rate.delivered = b.rate.delivered ∧ b.onSend b.endSeq len fin now tsval =
      { b with
        segs := b.segs ++ [
          { start := b.endOff, stop := b.endOff + (if fin then 1 else len), xmit := b.ns now,
            tsval := tsval, tx := b.nextTx, sacked := false, lost := false, retrans := false, fin := fin,
            rate := snapshot }]
        nextTx := b.nextTx + 1
        rate := rate
        tq := if b.rackOn then
            b.tq ++ [⟨b.endOff, b.endOff + (if fin then 1 else len), b.ns now, b.nextTx⟩]
          else b.tq } := by
  have hoff : b.off b.endSeq = b.endOff := off_seqOf hb.tiles.le hroom
  refine ⟨(b.rate.onSend (b.ns now) b.pipe (if fin then 1 else len)).1,
    (b.rate.onSend (b.ns now) b.pipe (if fin then 1 else len)).2, by simp, ?_⟩
  simp only [onSend, hlen, if_false, hoff, pushTx]
  split <;> rfl

theorem books_onSend (hb : Books b) (hroom : b.endOff < b.unaOff + 2 ^ 32) (len : ℕ) (fin : Bool)
    (now : Instant) (tsval : Seq) :
    Books (b.onSend b.endSeq len fin now tsval) ∧
      (b.onSend b.endSeq len fin now tsval).endOff = b.endOff + (if fin then 1 else len) ∧
      (b.onSend b.endSeq len fin now tsval).una = b.una ∧
      (b.onSend b.endSeq len fin now tsval).unaOff = b.unaOff := by
  by_cases hlen : (if fin then 1 else len) = 0
  · have : b.onSend b.endSeq len fin now tsval = b := by simp [onSend, hlen]
    rw [this, hlen]
    exact ⟨hb, rfl, rfl, rfl⟩
  · obtain ⟨rate, snapshot, -, heq⟩ := onSend_eq hb hroom len fin now tsval hlen
    rw [heq]
    have hend : ∀ t : Seg, (((b.segs ++ [t]).getLast?.map Seg.stop).getD b.unaOff) = t.stop := by
      simp
    refine ⟨⟨?_, ?_, ?_, ?_, ?_, ?_, hb.sorted⟩, hend _, rfl, rfl⟩
    · refine tiles_append.mpr ⟨b.endOff, hb.tiles, ?_⟩
      simp only [tiles_cons, tiles_nil, endOff, hend, true_and, and_true]
      omega
    · simp only [List.mem_append, List.mem_singleton]
      rintro t (ht | rfl)
      · exact hb.excl t ht
      · simp
    · simpa using hb.sacked_eq
    · simpa [List.countP_append] using hb.sackedSegs_eq
    · simpa using hb.lost_eq
    · intro x
      rw [lostStart_append]
      simpa using hb.mem_lostSet x

/-- What taking the segments below `ackOff` off the front of `l`, which tiles `[a, e)`, did. -/
structure AckedTo (ackOff a e : ℕ) (l : List Seg) (b b' : Scoreboard) (d d' : Delivery) : Prop where
  frame : ∃ segs sacked sackedSegs lost lostSet rate rack, b' =
    { b with segs := segs, sacked := sacked, sackedSegs := sackedSegs, lost := lost, lostSet := lostSet,
             rate := rate, rack := rack }
  tiles : Tiles Seg.start Seg.stop (min ackOff e) b'.segs e
  counts : Counts b'.segs b'
  /-- what is left was there before, the first of it perhaps cut -/
  left : ∀ t ∈ b'.segs, ∃ s ∈ l, ∃ st ≥ s.start, t = { s with start := st }
  credit : b'.rate.delivered + b.sacked = b.rate.delivered + b'.sacked + (min ackOff e - a)
  report : d.delivered + (e - a) < 2 ^ 32 →
    d'.delivered + b.sacked = d.delivered + b'.sacked + (min ackOff e - a)

theorem Delivery.note_delivered (d : Delivery) (n : ℕ) (e : Seq) (o : Bool) :
    (d.note n e o).delivered = (d.addBytes n).delivered := by
  simp only [Delivery.note, Delivery.noteMax, Delivery.noteOrig]
  split_ifs <;> rfl

theorem Delivery.addBytes_delivered {d : Delivery} {n : ℕ} (h : d.delivered + n < 2 ^ 32) :
    (d.addBytes n).delivered = d.delivered + n := by
  simp only [Delivery.addBytes]
  rw [Nat.mod_eq_of_lt (by omega)]
  omega

/-- The counters once the front segment is gone. -/
theorem Counts.pop (h : Counts (s :: l) b) {a e : ℕ} (ht : Tiles Seg.start Seg.stop a (s :: l) e)
    {sacked sackedSegs : ℕ} (hk : sacked + (if s.sacked then s.len else 0) = b.sacked)
    (hc : sackedSegs + (if s.sacked then 1 else 0) = b.sackedSegs) (rate : Rate) (rack : Rack) :
    Counts l { b.unlose s with sacked := sacked, sackedSegs := sackedSegs, rate := rate, rack := rack } := by
  have h1 := h.sacked_eq
  have h2 := h.sackedSegs_eq
  have h3 := h.lost_eq
  simp only [bytesOf_cons, List.countP_cons] at h1 h2 h3
  obtain ⟨ha, hlt, hrest⟩ := ht
  refine ⟨?_, ?_, ?_, ?_, ?_⟩
  · simp only; omega
  · simp only; omega
  · simp only [unlose]
    split at h3 <;> simp_all
  · intro x
    have hx := h.mem_lostSet x
    have hnot : LostStart l x → x ≠ s.start := by
      rintro ⟨t, ht, -, rfl⟩
      have := (hrest.mem_bounds ht).1
      omega
    simp only [unlose]
    cases hl : s.lost
    · simpa [hl] using hx
    · simp only [hl, if_true, mem_remove, hx, lostStart_cons, true_and]
      constructor
      · rintro ⟨rfl | h5, h6⟩
        · exact absurd rfl h6
        · exact h5
      · exact fun h5 => ⟨.inr h5, hnot h5⟩
  · simp only [unlose]
    split
    · exact sorted_remove h.sorted
    · exact h.sorted

/-- The counters once the front segment is cut at `x`. -/
theorem Counts.trim (h : Counts (s :: l) b) {a e x : ℕ} (ht : Tiles Seg.start Seg.stop a (s :: l) e)
    (h1 : s.start < x) (h2 : x < s.stop) {sacked lost : ℕ} {lostSet : List ℕ}
    (hk : sacked + (if s.sacked then x - s.start else 0) = b.sacked)
    (hl : lost + (if s.lost then x - s.start else 0) = b.lost)
    (hs : lostSet = if s.lost then put x (remove s.start b.lostSet) else b.lostSet)
    (rate : Rate) :
    Counts ({ s with start := x } :: l) { b with
      segs := { s with start := x } :: l, sacked := sacked, lost := lost, lostSet := lostSet, rate := rate } := by
  have h3 := h.sacked_eq
  have h4 := h.sackedSegs_eq
  have h5 := h.lost_eq
  simp only [bytesOf_cons, List.countP_cons, Seg.len] at h3 h4 h5
  obtain ⟨ha, hlt, hrest⟩ := ht
  refine ⟨?_, ?_, ?_, ?_, ?_⟩
  · simp only [bytesOf_cons, Seg.len]
    split at h3 <;> simp_all
    omega
  · simpa only [List.countP_cons] using h4
  · simp only [bytesOf_cons, Seg.len]
    split at h5 <;> simp_all
    omega
  · intro y
    have hy := h.mem_lostSet y
    have hnot : LostStart l y → y ≠ s.start := by
      rintro ⟨t, ht, -, rfl⟩
      have := (hrest.mem_bounds ht).1
      omega
    subst hs
    cases hlo : s.lost
    · simpa [hlo] using hy
    · simp only [hlo, if_true, mem_put, mem_remove, hy, lostStart_cons, true_and]
      constructor
      · rintro (rfl | ⟨rfl | h6, h7⟩)
        · exact .inl rfl
        · exact absurd rfl h7
        · exact .inr h6
      · rintro (rfl | h6)
        · exact .inl rfl
        · exact .inr ⟨.inr h6, hnot h6⟩
  · subst hs
    change (if s.lost then put x (remove s.start b.lostSet) else b.lostSet).Pairwise (· < ·)
    split
    · exact sorted_put (sorted_remove h.sorted)
    · exact h.sorted

/-- One more segment taken off the front. -/
theorem AckedTo.cons {b₁ : Scoreboard} {d₁ : Delivery} {ackOff e : ℕ}
    (hf : ∃ sacked sackedSegs lost lostSet rate rack, b₁ = { b with
      sacked := sacked, sackedSegs := sackedSegs, lost := lost, lostSet := lostSet, rate := rate,
      rack := rack })
    (hlt : s.start < s.stop) (hse : s.stop ≤ e) (hpop : s.stop ≤ ackOff)
    (hcr : b₁.rate.delivered + b.sacked = b.rate.delivered + b₁.sacked + s.len)
    (hd : d₁.delivered ≤ d.delivered + s.len)
    (hrep : d.delivered + s.len < 2 ^ 32 → d₁.delivered + b.sacked = d.delivered + b₁.sacked + s.len)
    (h : AckedTo ackOff s.stop e l b₁ b' d₁ d') : AckedTo ackOff s.start e (s :: l) b b' d d' where
  frame := by
    obtain ⟨_, _, _, _, _, _, rfl⟩ := hf
    exact h.frame
  tiles := h.tiles
  counts := h.counts
  left := fun t ht => by
    obtain ⟨u, hu, st, hst⟩ := h.left t ht
    exact ⟨u, List.mem_cons_of_mem _ hu, st, hst⟩
  credit := by
    have := h.credit
    simp only [Seg.len] at hcr
    omega
  report := by
    intro hroom
    simp only [Seg.len] at hd hrep
    have h1 := hrep (by omega)
    have h2 := h.report (by omega)
    omega

/-- The ACK ends inside the front segment. -/
theorem AckedTo.cut {ackOff e : ℕ} (hc : Counts (s :: l) b)
    (ht : Tiles Seg.start Seg.stop s.start (s :: l) e) (h1 : s.start < ackOff) (h2 : ackOff < s.stop)
    (sacked lost : ℕ) (lostSet : List ℕ) (rate : Rate)
    (hk : sacked + (if s.sacked then ackOff - s.start else 0) = b.sacked)
    (hl : lost + (if s.lost then ackOff - s.start else 0) = b.lost)
    (hs : lostSet = if s.lost then put ackOff (remove s.start b.lostSet) else b.lostSet)
    (hcr : rate.delivered + b.sacked = b.rate.delivered + sacked + (ackOff - s.start))
    (hrep : d.delivered + (ackOff - s.start) < 2 ^ 32 →
      d'.delivered + b.sacked = d.delivered + sacked + (ackOff - s.start)) :
    AckedTo ackOff s.start e (s :: l) b { b with
      segs := { s with start := ackOff } :: l, sacked := sacked, lost := lost, lostSet := lostSet,
      rate := rate } d d' := by
  have hse := ht.2.2.le
  have hmin : min ackOff e = ackOff := by omega
  refine ⟨⟨_, _, _, _, _, _, _, rfl⟩, ?_, hc.trim ht h1 h2 hk hl hs rate, ?_, ?_, ?_⟩
  · rw [hmin]
    exact ⟨rfl, h2, ht.2.2⟩
  · intro t ht'
    rcases List.mem_cons.mp ht' with rfl | ht'
    · exact ⟨s, List.mem_cons_self, ackOff, h1.le, rfl⟩
    · exact ⟨t, List.mem_cons_of_mem _ ht', t.start, le_rfl, rfl⟩
  · rw [hmin]
    exact hcr
  · rw [hmin]
    exact fun hroom => hrep (by omega)

theorem ackLoop_spec {ackOff now : ℕ} {ecr : Option Seq} {a e : ℕ}
    (ht : Tiles Seg.start Seg.stop a l e) (ha : a ≤ ackOff) (hc : Counts l b) :
    AckedTo ackOff a e l b (ackLoop ackOff now ecr l b d).1 d (ackLoop ackOff now ecr l b d).2 := by
  induction l generalizing a b d with
  | nil =>
    obtain rfl : a = e := ht
    have hmin : min ackOff a = a := Nat.min_eq_right ha
    refine ⟨⟨_, _, _, _, _, _, _, rfl⟩, ?_, ⟨hc.1, hc.2, hc.3, hc.4, hc.5⟩, ?_, ?_, ?_⟩ <;>
      simp [ackLoop, hmin]
  | cons s l ih =>
    have htl := ht
    obtain ⟨rfl, hlt, hrest⟩ := ht
    have hse := hrest.le
    have hk := hc.sacked_eq
    have hn := hc.sackedSegs_eq
    have hlo := hc.lost_eq
    simp only [bytesOf_cons, List.countP_cons, Seg.len] at hk hn hlo
    obtain ⟨lost, lostSet, hu⟩ := unlose_frame b s
    rw [ackLoop]
    split
    · rename_i hpop
      simp only
      split
      · -- SACKed before: nothing new to credit
        rename_i hsk
        simp only [hsk, if_true] at hk hn
        refine AckedTo.cons ⟨b.sacked - s.len, b.sackedSegs - 1, lost, lostSet, b.rate, b.rack, ?_⟩
          hlt hse hpop ?_ ?_ ?_ (ih hrest hpop ?_)
        · rw [hu]
        · simp only [hu, Seg.len]
          omega
        · omega
        · simp only [hu, Seg.len]
          omega
        · refine hc.pop htl ?_ ?_ (b.unlose s).rate (b.unlose s).rack
          · simp only [hu, hsk, if_true, Seg.len]
            omega
          · simp only [hu, hsk, if_true]
            omega
      · rename_i hsk
        simp only [Bool.not_eq_true] at hsk
        have hadd := Delivery.addBytes_delivered (d := d) (n := s.len)
        refine AckedTo.cons ⟨b.sacked, b.sackedSegs, lost, lostSet,
          b.rate.onDelivered s.rate s.xmit s.stop s.len now, rackDelivered b.rack s now ecr, ?_⟩
          hlt hse hpop ?_ ?_ ?_ (ih hrest hpop ?_)
        · simp only [deliverSeg, hu]
        · simp only [deliverSeg, hu, Rate.onDelivered_delivered]
          omega
        · simp only [deliverSeg, Delivery.note_delivered, Delivery.addBytes]
          have := Nat.mod_le s.len (2 ^ 32)
          omega
        · intro hroom
          simp only [deliverSeg, hu, Delivery.note_delivered, hadd hroom]
          omega
        · exact hc.pop htl (by simp [hu, hsk]) (by simp [hu, hsk]) _ _
    · rename_i hkeep
      split
      · rename_i hcut
        have hadd := Delivery.addBytes_delivered (d := d) (n := ackOff - s.start)
        by_cases hsk : s.sacked = true <;> by_cases hls : s.lost = true
        · simp only [if_pos hsk, if_pos hls] at hk hlo ⊢
          refine AckedTo.cut hc htl hcut (by omega) (b.sacked - (ackOff - s.start))
            (b.lost - (ackOff - s.start)) _ b.rate ?_ ?_ (by rw [if_pos hls]) ?_ ?_
          · rw [if_pos hsk]; omega
          · rw [if_pos hls]; omega
          · omega
          · omega
        · simp only [if_pos hsk, if_neg hls] at hk hlo ⊢
          refine AckedTo.cut hc htl hcut (by omega) (b.sacked - (ackOff - s.start)) b.lost b.lostSet b.rate
            ?_ (by rw [if_neg hls]; omega) (by rw [if_neg hls]) ?_ ?_
          · rw [if_pos hsk]; omega
          · omega
          · omega
        · simp only [if_neg hsk, if_pos hls] at hk hlo ⊢
          refine AckedTo.cut hc htl hcut (by omega) b.sacked (b.lost - (ackOff - s.start)) _
            (b.rate.onPartial _) (by rw [if_neg hsk]; omega) ?_ (by rw [if_pos hls]) ?_ ?_
          · rw [if_pos hls]; omega
          · simp only [Rate.onPartial]; omega
          · intro hroom
            rw [hadd hroom]; omega
        · simp only [if_neg hsk, if_neg hls] at hk hlo ⊢
          refine AckedTo.cut hc htl hcut (by omega) b.sacked b.lost b.lostSet (b.rate.onPartial _)
            (by rw [if_neg hsk]; omega) (by rw [if_neg hls]; omega) (by rw [if_neg hls]) ?_ ?_
          · simp only [Rate.onPartial]; omega
          · intro hroom
            rw [hadd hroom]; omega
      · obtain rfl : ackOff = s.start := by omega
        have hmin : min s.start e = s.start := by omega
        refine ⟨⟨_, _, _, _, _, _, _, rfl⟩, ?_, ⟨hc.1, hc.2, hc.3, hc.4, hc.5⟩, ?_, ?_, ?_⟩
        · rw [hmin]
          exact htl
        · exact fun t ht => ⟨t, ht, t.start, le_rfl, rfl⟩
        · simp [hmin]
        · simp [hmin]

theorem AckedTo.excl {ackOff a e : ℕ} (h : AckedTo ackOff a e l b b' d d')
    (hx : ∀ s ∈ l, s.sacked = true → s.lost = false) :
    ∀ t ∈ b'.segs, t.sacked = true → t.lost = false := by
  intro t ht
  obtain ⟨u, hu, st, -, rfl⟩ := h.left t ht
  exact hx u hu

/-- A cumulative ACK that moves SND.UNA takes off the front what it covers. -/
theorem ack_spec (hb : Books b) {a : Seq} (ha : seqAfter a b.una = true) (now : Instant)
    (ecr : Option Seq) :
    ∃ c, AckedTo (b.off a) b.unaOff b.endOff b.segs b c {} (b.ack a now ecr).2 ∧
      (b.ack a now ecr).1 = { c with una := a, unaOff := b.off a } := by
  have hle : b.unaOff ≤ b.off a := Nat.le_add_right _ _
  have hnot : (!seqAfter a b.una) = false := by rw [ha]; rfl
  refine ⟨(ackLoop (b.off a) (b.ns now) ecr b.segs b {}).1, ?_, ?_⟩
  · rw [ack, hnot]
    exact ackLoop_spec hb.tiles hle hb.counts
  · rw [ack, hnot]
    rfl

theorem ack_of_not_after {a : Seq} (ha : seqAfter a b.una = false) (now : Instant) (ecr : Option Seq) :
    b.ack a now ecr = (b, {}) := by
  simp [ack, ha]

theorem AckedTo.books {a : Seq} {c : Scoreboard} (hb : Books b)
    (h : AckedTo (b.off a) b.unaOff b.endOff b.segs b c d d') :
    Books { c with una := a, unaOff := b.off a } ∧
      ({ c with una := a, unaOff := b.off a } : Scoreboard).endOff = max b.endOff (b.off a) := by
  have ht := h.tiles
  have htiles : Tiles Seg.start Seg.stop (b.off a) c.segs (max b.endOff (b.off a)) := by
    rcases Nat.le_total (b.off a) b.endOff with hle | hle
    · rwa [Nat.min_eq_left hle, ← Nat.max_eq_left hle] at ht
    · rw [Nat.min_eq_right hle] at ht
      have hnil : c.segs = [] := by
        cases hc : c.segs with
        | nil => rfl
        | cons s l =>
          rw [hc] at ht
          obtain ⟨h1, h2, h3⟩ := ht
          have := h3.le
          omega
      rw [hnil, Nat.max_eq_right hle]
      rfl
  have hend : ({ c with una := a, unaOff := b.off a } : Scoreboard).endOff = max b.endOff (b.off a) :=
    endOff_eq_of_tiles htiles
  obtain ⟨h1, h2, h3, h4, h5⟩ := h.counts
  refine ⟨⟨?_, h.excl hb.excl, h1, h2, h3, h4, h5⟩, hend⟩
  rw [hend]
  exact htiles

theorem books_ack (hb : Books b) (a : Seq) (now : Instant) (ecr : Option Seq) :
    Books (b.ack a now ecr).1 ∧
      (b.ack a now ecr).1.endOff ≤ max b.endOff (b.ack a now ecr).1.unaOff ∧
      b.unaOff ≤ (b.ack a now ecr).1.unaOff := by
  cases ha : seqAfter a b.una with
  | false =>
    rw [ack_of_not_after ha]
    exact ⟨hb, le_max_left _ _, le_rfl⟩
  | true =>
    obtain ⟨c, hc, heq⟩ := ack_spec hb ha now ecr
    obtain ⟨h1, h2⟩ := hc.books hb
    rw [heq]
    exact ⟨h1, h2.le, Nat.le_add_right _ _⟩

theorem tiles_map (f : Seg → Seg) (h1 : ∀ s, (f s).start = s.start) (h2 : ∀ s, (f s).stop = s.stop)
    {a e : ℕ} (h : Tiles Seg.start Seg.stop a l e) : Tiles Seg.start Seg.stop a (l.map f) e := by
  induction l generalizing a with
  | nil => exact h
  | cons s l ih =>
    obtain ⟨h3, h4, h5⟩ := h
    rw [List.map_cons, tiles_cons, h1, h2]
    exact ⟨h3, h4, ih h5⟩

theorem bytesOf_map (p : Seg → Bool) (f : Seg → Seg) (hp : ∀ s, p (f s) = p s) (hl : ∀ s, (f s).len = s.len)
    (l : List Seg) : bytesOf p (l.map f) = bytesOf p l := by
  induction l with
  | nil => rfl
  | cons s l ih => simp [hp, hl, ih]

theorem bytesOf_eq_zero (p : Seg → Bool) (h : ∀ s ∈ l, p s = false) : bytesOf p l = 0 := by
  have : l.filter p = [] := by simpa [List.filter_eq_nil_iff] using h
  simp [bytesOf, this]

theorem books_clearSacks (hb : Books b) : Books b.clearSacks ∧ b.clearSacks.endOff = b.endOff := by
  let f : Seg → Seg := fun s => { s with sacked := false }
  have ht : Tiles Seg.start Seg.stop b.clearSacks.unaOff (b.segs.map f) b.endOff :=
    tiles_map f (fun _ => rfl) (fun _ => rfl) hb.tiles
  have hend : b.clearSacks.endOff = b.endOff := endOff_eq_of_tiles ht
  refine ⟨⟨hend ▸ ht, ?_, ?_, ?_, ?_, ?_, hb.sorted⟩, hend⟩
  · simp [clearSacks]
  · exact (bytesOf_eq_zero _ (by simp [clearSacks])).symm
  · exact (List.countP_eq_zero.mpr (by simp [clearSacks])).symm
  · exact hb.lost_eq.trans (bytesOf_map _ f (fun _ => rfl) (fun _ => rfl) _).symm
  · intro x
    simpa [clearSacks, LostStart] using hb.mem_lostSet x

theorem books_unmarkLost (hb : Books b) : Books b.unmarkLost ∧ b.unmarkLost.endOff = b.endOff := by
  let f : Seg → Seg := fun s => { s with lost := false }
  have ht : Tiles Seg.start Seg.stop b.unmarkLost.unaOff (b.segs.map f) b.endOff :=
    tiles_map f (fun _ => rfl) (fun _ => rfl) hb.tiles
  have hend : b.unmarkLost.endOff = b.endOff := endOff_eq_of_tiles ht
  refine ⟨⟨hend ▸ ht, ?_, ?_, ?_, ?_, ?_, ?_⟩, hend⟩
  · simp [unmarkLost]
  · exact hb.sacked_eq.trans (bytesOf_map _ f (fun _ => rfl) (fun _ => rfl) _).symm
  · exact hb.sackedSegs_eq.trans (List.countP_map (p := Seg.sacked) (f := f)).symm
  · exact (bytesOf_eq_zero _ (by simp [unmarkLost])).symm
  · simp [unmarkLost, LostStart]
  · simp [unmarkLost]

end Scoreboard

end PktKit.Vtcp
