import PktKit.Vtcp.Scoreboard.Fin
import PktKit.Vtcp.Scoreboard.Sacking

/-! # Sending again what is lost

What is deemed lost goes out again from the lowest on, a segment's worth at a
time: pieces of one transmission are joined as far as they fit, and what does not
fit is cut off and stays lost. Each turn sends exactly the range it was told, so
the turns end, and together cover what was lost.
-/

namespace PktKit.Vtcp
open Foundations.Runs Foundations.Tilings

namespace Scoreboard

variable {b c : Scoreboard} {s t u : Seg} {pre post rest : List Seg} {i m n o start e x len : ℕ} {now : Instant}
  {tsval : Seq}

def LostByte (b : Scoreboard) (o : ℕ) : Prop := ∃ s ∈ b.segs, s.lost = true ∧ s.start ≤ o ∧ o < s.stop

def SackedByte (b : Scoreboard) (o : ℕ) : Prop := ∃ s ∈ b.segs, s.sacked = true ∧ s.start ≤ o ∧ o < s.stop

/-- Ask for what is lost and send it again, `n` times or until there is nothing: what was sent, and the
scoreboard then. The `k`-th goes out at `(clock k).1`, with timestamp `(clock k).2`. -/
def drain (m : ℕ) (clock : ℕ → Instant × Seq) (b : Scoreboard) : ℕ → List SegRef × Scoreboard
  | 0 => ([], b)
  | k + 1 =>
    let acc := drain m clock b k
    match acc.2.nextLost m with
    | none => acc
    | some r => (acc.1 ++ [r], acc.2.onRetransmit r.1 r.2.1 (clock k).1 (clock k).2)

def Alike (s t : Seg) : Prop := t.tx = s.tx ∧ t.sacked = s.sacked ∧ t.lost = s.lost ∧ t.fin = s.fin

theorem mergeable_of_segs (h : b.segs = pre ++ s :: t :: post) :
    b.mergeable pre.length = true ↔ Alike s t ∧ s.sacked = false ∧ s.fin = false := by
  have h1 : b.segs[pre.length]? = some s := getElem?_of_segs h
  have h2 : b.segs[pre.length + 1]? = some t := by simp [h]
  simp only [mergeable, h1, h2, Bool.and_eq_true, beq_iff_eq, Bool.not_eq_true', Alike]
  constructor
  · rintro ⟨⟨⟨⟨⟨g1, g2⟩, g3⟩, g4⟩, g5⟩, g6⟩
    exact ⟨⟨g1.symm, g2.symm, g3.symm, g4.symm⟩, g5, g6⟩
  · rintro ⟨⟨g1, g2, g3, g4⟩, g5, g6⟩
    exact ⟨⟨⟨⟨⟨g1.symm, g2.symm⟩, g3.symm⟩, g4.symm⟩, g5⟩, g6⟩

theorem mergeNext_segs (h : b.segs = pre ++ s :: t :: post) :
    (b.mergeNext pre.length).segs =
      pre ++ { s with stop := t.stop, retrans := s.retrans || t.retrans } :: post := by
  have h1 : b.segs[pre.length]? = some s := getElem?_of_segs h
  have h2 : b.segs[pre.length + 1]? = some t := by simp [h]
  simp only [mergeNext, h1, h2]
  rw [h]
  simp [List.drop_append]

/-- The pieces in `rest`, that lie short of `x`, are joined to `s`, which then ends where the last did. -/
theorem mergeLoop_segs (h : b.segs = pre ++ s :: (rest ++ post)) (hn : rest.length ≤ n)
    (halike : ∀ t ∈ rest, Alike s t) (hdata : rest ≠ [] → s.sacked = false ∧ s.fin = false)
    (ht : Tiles Seg.start Seg.stop s.stop rest e) (hlt : ∀ t ∈ rest, t.start < x) (hx : x ≤ e) :
    ∃ w, (mergeLoop n b pre.length x).segs = pre ++ w :: post ∧ w.start = s.start ∧ w.stop = e ∧ Alike s w := by
  induction rest generalizing b s n with
  | nil =>
    obtain rfl : s.stop = e := ht
    refine ⟨s, ?_, rfl, rfl, rfl, rfl, rfl, rfl⟩
    cases n with
    | zero => exact h
    | succ n =>
      have hstop : ¬ s.stop < x := by omega
      simp only [mergeLoop, getElem?_of_segs h, decide_eq_false hstop, Bool.false_and]
      exact h
  | cons t rest ih =>
    obtain ⟨hts, htlt, hrest⟩ := ht
    obtain ⟨hsk, hfin⟩ := hdata (List.cons_ne_nil t rest)
    have hst : s.stop < x := hts ▸ hlt t List.mem_cons_self
    have hm : b.mergeable pre.length = true :=
      (mergeable_of_segs h).mpr ⟨halike t List.mem_cons_self, hsk, hfin⟩
    cases n with
    | zero => cases hn
    | succ n =>
      simp only [mergeLoop, getElem?_of_segs h, decide_eq_true hst, hm, Bool.and_self, if_true]
      exact ih (s := { s with stop := t.stop, retrans := s.retrans || t.retrans }) (mergeNext_segs h)
        (Nat.le_of_succ_le_succ hn) (fun u hu => halike u (List.mem_cons_of_mem t hu)) (fun _ => ⟨hsk, hfin⟩)
        hrest (fun u hu => hlt u (List.mem_cons_of_mem t hu))

/-- What goes out as one with `u`: pieces of the same transmission, each begun short of `start + m`. -/
theorem joinLost_run (hb : Books b) (h : b.segs = pre ++ u :: post) (start m n : ℕ) :
    ∃ rest post' e, post = rest ++ post' ∧
      b.joinLost start m n pre.length u.stop = (pre.length + rest.length, e) ∧
      Tiles Seg.start Seg.stop u.stop rest e ∧ (∀ t ∈ rest, Alike u t ∧ t.start - start < m) ∧
      (rest ≠ [] → u.sacked = false ∧ u.fin = false) := by
  induction n generalizing pre post u with
  | zero => exact ⟨[], post, u.stop, rfl, rfl, rfl, by simp, by simp⟩
  | succ n ih =>
    rw [joinLost]
    cases post with
    | nil =>
      have h2 : b.segs[pre.length + 1]? = none := by simp [h]
      rw [h2]
      exact ⟨[], [], u.stop, rfl, rfl, rfl, by simp, by simp⟩
    | cons t post =>
      have h2 : b.segs[pre.length + 1]? = some t := by simp [h]
      have htl := hb.tiles
      rw [h] at htl
      obtain ⟨-, -, -, -, hts, htlt, -⟩ := tiles_append.mp htl
      rw [h2]
      simp only
      split
      · rename_i hjoin
        simp only [Bool.and_eq_true, decide_eq_true_eq] at hjoin
        obtain ⟨⟨hshort, hm⟩, -⟩ := hjoin
        obtain ⟨hal, hsk, hfin⟩ := (mergeable_of_segs h).mp hm
        have h' : b.segs = (pre ++ [u]) ++ t :: post := by simp [h]
        obtain ⟨rest, post', e, hpost, heq, htiles, hrest, -⟩ := ih h'
        rw [List.length_append, List.length_singleton] at heq
        refine ⟨t :: rest, post', e, by rw [hpost]; rfl, ?_, ⟨hts, htlt, htiles⟩, ?_, fun _ => ⟨hsk, hfin⟩⟩
        · rw [heq, List.length_cons]
          congr 1
          omega
        · intro v hv
          rcases List.mem_cons.mp hv with rfl | hv
          · exact ⟨hal, by omega⟩
          · obtain ⟨⟨g1, g2, g3, g4⟩, g5⟩ := hrest v hv
            obtain ⟨k1, k2, k3, k4⟩ := hal
            exact ⟨⟨g1.trans k1, g2.trans k2, g3.trans k3, g4.trans k4⟩, g5⟩
      · exact ⟨[], t :: post, u.stop, rfl, rfl, rfl, by simp, by simp⟩

/-- What is offered: `len` bytes from the start of the lowest lost segment, which it shares with pieces
of the same transmission after it. -/
structure Offer (b : Scoreboard) (m : ℕ) (r : SegRef) (pre : List Seg) (s : Seg) (rest post : List Seg) (e : ℕ) :
    Prop where
  segs : b.segs = pre ++ s :: (rest ++ post)
  seq : r.1 = b.seqOf s.start
  below : ∀ t ∈ pre, t.lost = false
  lost : s.lost = true
  alike : ∀ t ∈ rest, Alike s t
  data : rest ≠ [] → s.sacked = false ∧ s.fin = false
  tiles : Tiles Seg.start Seg.stop s.stop rest e
  short : ∀ t ∈ rest, t.start < s.start + r.2.1
  len : 1 ≤ r.2.1 ∧ r.2.1 ≤ m ∧ s.start + r.2.1 ≤ e
  fin : s.fin = true → s.start + r.2.1 = e

theorem nextLost_spec (hb : Sound b) (hroom : b.endOff < b.unaOff + 2 ^ 32) (hm : 1 ≤ m) :
    (b.nextLost m = none ∧ ∀ s ∈ b.segs, s.lost = false) ∨
      ∃ r pre s rest post e, b.nextLost m = some r ∧ Offer b m r pre s rest post e := by
  cases hset : b.lostSet with
  | nil =>
    left
    refine ⟨by simp [nextLost, hset], fun s hs => ?_⟩
    by_contra hl
    have := (hb.books.mem_lostSet s.start).mpr ⟨s, hs, by simpa using hl, rfl⟩
    rw [hset] at this
    cases this
  | cons start starts =>
    right
    obtain ⟨s, hs, hl, rfl⟩ := (hb.books.mem_lostSet start).mp (by rw [hset]; exact List.mem_cons_self)
    obtain ⟨pre, post, hsegs⟩ := List.append_of_mem hs
    obtain ⟨hs1, hs2, hs3⟩ := hb.books.tiles.mem_bounds hs
    have hidx := idx_of_segs hb.books hsegs le_rfl hs2
    -- the set is in order, so no segment before it is lost
    have hbelow : ∀ t ∈ pre, t.lost = false := by
      intro t ht
      by_contra hlt
      have hmem := (hb.books.mem_lostSet t.start).mpr ⟨t, by simp [hsegs, ht], by simpa using hlt, rfl⟩
      have htl := hb.books.tiles
      have hsorted := hb.books.sorted
      rw [hset] at hmem hsorted
      rw [hsegs] at htl
      obtain ⟨a, hpre, hstart, -⟩ := tiles_append.mp htl
      have := hpre.mem_bounds ht
      rcases List.mem_cons.mp hmem with heq | hmem
      · omega
      · have := (List.pairwise_cons.mp hsorted).1 _ hmem
        omega
    have hmax : Max.max m 1 = m := by omega
    have hlen : s.len % 2 ^ 32 = s.len := Nat.mod_eq_of_lt (by rw [Seg.len]; omega)
    cases hf : s.fin with
    | true =>
      have hone := (hb.finLast s hs hf).2
      refine ⟨(b.seqOf s.start, 1, true), pre, s, [], post, s.stop, ?_, hsegs, rfl, hbelow,
        hl, by simp, by simp, rfl,
        by simp, ?_, fun _ => hone.symm⟩
      · simp [nextLost, hset, hidx, getElem?_of_segs hsegs, segRef, hf]
      · simp only
        omega
    | false =>
      obtain ⟨rest, post', e, hpost, hjoin, htiles, hrest, hdata⟩ := joinLost_run hb.books hsegs s.start m
        b.segs.length
      have hle := htiles.le
      refine ⟨(b.seqOf s.start, if rest = [] then min s.len m else min (e - s.start) m, false), pre,
        s, rest, post', e,
        ?_, by rw [hsegs, hpost], rfl, hbelow, hl, fun t ht => (hrest t ht).1, hdata, htiles, ?_, ?_, ?_⟩
      · have hj : pre.length + rest.length = pre.length ↔ rest = [] := by
          rw [← List.length_eq_zero_iff]
          omega
        simp only [nextLost, hset, List.head?_cons, hidx, getElem?_of_segs hsegs, segRef, hf, Bool.false_eq_true,
          if_false, hmax, hlen, hjoin, hj]
      · intro t ht
        have h1 := (hrest t ht).2
        have h2 := htiles.mem_bounds ht
        have hne : rest ≠ [] := List.ne_nil_of_mem ht
        simp only [if_neg hne]
        omega
      · by_cases hne : rest = []
        · subst hne
          obtain rfl : s.stop = e := htiles
          simp only [if_true, Seg.len]
          omega
        · simp only [if_neg hne]
          omega
      · rw [hf]
        intro h
        cases h

theorem resendAt_segs (h : b.segs = pre ++ s :: post) (now : Instant) (tsval : Seq) :
    ∃ sent, (b.resendAt pre.length now tsval).segs = pre ++ sent :: post ∧ sent.start = s.start ∧
      sent.stop = s.stop ∧ sent.lost = false ∧ sent.sacked = s.sacked := by
  obtain ⟨rate, snapshot, -, heq⟩ := resendAt_eq (getElem?_of_segs h) now tsval
  obtain ⟨h1, h2⟩ := take_drop_of_segs h
  rw [heq, h1, h2, List.append_assoc]
  exact ⟨_, rfl, rfl, rfl, rfl, rfl⟩

/-- Sent again, the offer is one segment in flight, and what did not fit is still lost. -/
theorem Offer.onRetransmit_segs {r : SegRef} (h : Offer b m r pre s rest post e) (hb : Sound b)
    (hroom : b.endOff < b.unaOff + 2 ^ 32) (now : Instant) (tsval : Seq) :
    ∃ sent left : Seg, (b.onRetransmit r.1 r.2.1 now tsval).segs =
        pre ++ sent :: ((if s.start + r.2.1 < e then [left] else []) ++ post) ∧
      (sent.start = s.start ∧ sent.stop = s.start + r.2.1 ∧ sent.lost = false ∧ sent.sacked = s.sacked) ∧
      left.start = s.start + r.2.1 ∧ left.stop = e ∧ left.lost = true ∧ left.sacked = s.sacked := by
  obtain ⟨seq, len, fin⟩ := r
  obtain ⟨hsegs, rfl, -, hlost, halike, hdata, htiles, hshort, ⟨hlen, -, hle⟩, hfin⟩ := h
  simp only at hshort hlen hle hfin ⊢
  obtain ⟨hs1, hs2, hs3⟩ := hb.books.tiles.mem_bounds (show s ∈ b.segs by simp [hsegs])
  have hoff : b.off (b.seqOf s.start) = s.start := off_seqOf hs1 (by omega)
  have hmax : max len 1 = len := by omega
  have hno : b.splitBefore pre.length s.start = (b, pre.length) := by
    simp [splitBefore, getElem?_of_segs hsegs]
  have hn : rest.length ≤ b.segs.length := by
    rw [hsegs]
    simp only [List.length_append, List.length_cons]
    omega
  obtain ⟨w, hmerge, hw1, hw2, -, hw3, hw4, hw5⟩ := mergeLoop_segs hsegs hn halike hdata htiles hshort hle
  simp only [onRetransmit, hoff, idx_of_segs hb.books hsegs le_rfl hs2, hno, hmax]
  generalize mergeLoop b.segs.length b pre.length (s.start + len) = merged at hmerge ⊢
  by_cases hcut : s.start + len < e
  · have hnofin : w.fin = false := by
      rw [hw5]
      cases hf : s.fin with
      | false => rfl
      | true => exact absurd (hfin hf) (by omega)
    have hsplit : merged.splitAfter pre.length (s.start + len) = merged.split pre.length (s.start + len) := by
      simp only [splitAfter, getElem?_of_segs hmerge, hw2, hnofin, decide_eq_true hcut]
      rfl
    obtain ⟨sent, hsent, h1, h2, h3, h4⟩ := resendAt_segs (split_segs hmerge (s.start + len)) now tsval
    refine ⟨sent, { w with start := s.start + len }, ?_, ⟨h1.trans hw1, h2, h3, h4.trans hw3⟩, rfl, hw2,
      hw4.trans hlost, hw3⟩
    rw [hsplit, hsent, if_pos hcut]
    rfl
  · have hsame : merged.splitAfter pre.length (s.start + len) = merged := by
      simp only [splitAfter, getElem?_of_segs hmerge, hw2, decide_eq_false hcut]
      rfl
    obtain ⟨sent, hsent, h1, h2, h3, h4⟩ := resendAt_segs hmerge now tsval
    refine ⟨sent, { w with start := s.start + len }, ?_, ⟨h1.trans hw1, by omega, h3, h4.trans hw3⟩, rfl, hw2,
      hw4.trans hlost, hw3⟩
    rw [hsame, hsent, if_neg hcut]
    rfl

/-- One turn: the range is no longer lost, and nothing else changes. -/
structure Sent (b c : Scoreboard) (start len : ℕ) : Prop where
  sound : Sound c
  una : c.una = b.una ∧ c.unaOff = b.unaOff ∧ c.endOff = b.endOff
  first : ∀ o, LostByte b o → start ≤ o
  range : ∀ o, start ≤ o → o < start + len → LostByte b o
  lostByte : ∀ o, LostByte c o ↔ LostByte b o ∧ ¬ (start ≤ o ∧ o < start + len)
  sackedByte : ∀ o, SackedByte c o ↔ SackedByte b o
  lost : c.lost + len = b.lost
  sacked : c.sacked = b.sacked

theorem lostByte_run (ht : Tiles Seg.start Seg.stop start rest e) (hl : ∀ t ∈ rest, t.lost = true) :
    (∃ t ∈ rest, t.lost = true ∧ t.start ≤ o ∧ o < t.stop) ↔ start ≤ o ∧ o < e := by
  constructor
  · rintro ⟨t, hm, -, h1, h2⟩
    have := ht.mem_bounds hm
    omega
  · rintro ⟨h1, h2⟩
    obtain ⟨t, hm, h3⟩ := ht.cover h1 h2
    exact ⟨t, hm, hl t hm, h3⟩

theorem bytesOf_run (ht : Tiles Seg.start Seg.stop start rest e) (hl : ∀ t ∈ rest, t.lost = true) :
    start + bytesOf Seg.lost rest = e := by
  have hall : rest.filter Seg.lost = rest := List.filter_eq_self.mpr hl
  rw [bytesOf, hall]
  exact ht.sum_length

theorem Offer.sent {r : SegRef} (h : Offer b m r pre s rest post e) (hb : Sound b)
    (hroom : b.endOff < b.unaOff + 2 ^ 32) (now : Instant) (tsval : Seq) :
    Sent b (b.onRetransmit r.1 r.2.1 now tsval) s.start r.2.1 := by
  obtain ⟨hsound, huna, hoff, hend, -⟩ := keeps_onRetransmit b r.1 r.2.1 now tsval hb
  obtain ⟨sent, left, hsegs, ⟨h1, h2, h3, h4⟩, g1, g2, g3, g4⟩ := h.onRetransmit_segs hb hroom now
    tsval
  obtain ⟨hlen, -, hle⟩ := h.len
  have hrun : Tiles Seg.start Seg.stop s.start (s :: rest) e :=
    ⟨rfl, (hb.books.tiles.mem_bounds (show s ∈ b.segs by simp [h.segs])).2.1, h.tiles⟩
  have hall : ∀ t ∈ s :: rest, t.lost = true := by
    intro t ht
    rcases List.mem_cons.mp ht with rfl | ht
    · exact h.lost
    · exact (h.alike t ht).2.2.1.trans h.lost
  have hsk : s.sacked = false := by
    by_contra hk
    have := hb.books.excl s (by simp [h.segs]) (by simpa using hk)
    rw [h.lost] at this
    cases this
  have hnone : ∀ t ∈ s :: rest, t.sacked = false := by
    intro t ht
    rcases List.mem_cons.mp ht with rfl | ht
    · exact hsk
    · exact (h.alike t ht).2.1.trans hsk
  -- the segments as what was before the run, the run, and what was after it
  have hold : b.segs = pre ++ ((s :: rest) ++ post) := by rw [h.segs]; rfl
  have hpost : ∀ t ∈ post, e ≤ t.start := by
    intro t ht
    have htl := hb.books.tiles
    rw [hold] at htl
    obtain ⟨a, -, hmid⟩ := tiles_append.mp htl
    obtain ⟨a', hrun', htail⟩ := tiles_append.mp hmid
    obtain rfl : a' = e := hrun'.2.2.end_unique h.tiles
    exact (htail.mem_bounds ht).1
  have hlostOld : ∀ o, LostByte b o ↔ (s.start ≤ o ∧ o < e) ∨ ∃ t ∈ post, t.lost = true ∧ t.start ≤ o ∧
    o < t.stop := by
    intro o
    rw [← lostByte_run hrun hall, LostByte, hold]
    simp only [List.mem_append, or_and_right, exists_or]
    constructor
    · rintro (⟨t, ht, hl, -⟩ | hr)
      · rw [h.below t ht] at hl
        cases hl
      · exact hr
    · exact .inr
  have hlostNew : ∀ o, LostByte (b.onRetransmit r.1 r.2.1 now tsval) o ↔
      (s.start + r.2.1 ≤ o ∧ o < e) ∨ ∃ t ∈ post, t.lost = true ∧ t.start ≤ o ∧ o < t.stop := by
    intro o
    rw [LostByte, hsegs]
    simp only [List.mem_append, List.mem_cons]
    constructor
    · rintro ⟨t, ht | rfl | ht | ht, hl, ho1, ho2⟩
      · rw [h.below t ht] at hl
        cases hl
      · rw [h3] at hl
        cases hl
      · split at ht
        · obtain rfl := List.mem_singleton.mp ht
          omega
        · cases ht
      · exact .inr ⟨t, ht, hl, ho1, ho2⟩
    · rintro (⟨ho1, ho2⟩ | ⟨t, ht, hl, ho⟩)
      · rw [if_pos (by omega)]
        exact ⟨left, .inr (.inr (.inl (List.mem_singleton_self left))), g3, by omega, by omega⟩
      · exact ⟨t, .inr (.inr (.inr ht)), hl, ho⟩
  refine ⟨hsound, ⟨huna, hoff, hend⟩, ?_, ?_, ?_, ?_, ?_, ?_⟩
  · intro o ho
    rcases (hlostOld o).mp ho with ho | ⟨t, ht, -, ho1, -⟩
    · exact ho.1
    · have := hpost t ht
      omega
  · intro o ho1 ho2
    exact (hlostOld o).mpr (.inl (by omega))
  · intro o
    rw [hlostNew, hlostOld]
    constructor
    · rintro (ho | ⟨t, ht, hl, ho1, ho2⟩)
      · exact ⟨.inl (by omega), by omega⟩
      · have := hpost t ht
        exact ⟨.inr ⟨t, ht, hl, ho1, ho2⟩, by omega⟩
    · rintro ⟨ho | ho, hout⟩
      · exact .inl (by omega)
      · exact .inr ho
  · intro o
    rw [SackedByte, SackedByte, hsegs, hold]
    simp only [List.mem_append, List.mem_cons]
    constructor
    · rintro ⟨t, ht | rfl | ht | ht, hk, ho⟩
      · exact ⟨t, .inl ht, hk, ho⟩
      · rw [h4, hsk] at hk
        cases hk
      · split at ht
        · obtain rfl := List.mem_singleton.mp ht
          rw [g4, hsk] at hk
          cases hk
        · cases ht
      · exact ⟨t, .inr (.inr ht), hk, ho⟩
    · rintro ⟨t, ht | ht | ht, hk, ho⟩
      · exact ⟨t, .inl ht, hk, ho⟩
      · rw [hnone t (List.mem_cons.mpr ht)] at hk
        cases hk
      · exact ⟨t, .inr (.inr (.inr ht)), hk, ho⟩
  · rw [hsound.books.lost_eq, hb.books.lost_eq, hsegs, hold]
    have hrunLost := bytesOf_run hrun hall
    have hleft : bytesOf Seg.lost (if s.start + r.2.1 < e then [left] else []) = e - (s.start + r.2.1) := by
      split
      · simp [g3, Seg.len, g1, g2]
      · simp only [bytesOf_nil]
        omega
    simp only [bytesOf_append, bytesOf_cons, h3, hleft, Bool.false_eq_true, if_false] at hrunLost ⊢
    omega
  · rw [hsound.books.sacked_eq, hb.books.sacked_eq, hsegs, hold]
    have hleft : bytesOf Seg.sacked (if s.start + r.2.1 < e then [left] else []) = 0 := by
      split
      · simp [g4, hsk]
      · rfl
    simp only [bytesOf_append, bytesOf_cons, h4, hleft, hsk, bytesOf_eq_zero _ hnone, Bool.false_eq_true, if_false]
    have := bytesOf_eq_zero Seg.sacked hnone
    simp only [bytesOf_cons, hsk] at this
    omega

/-- What has been sent so far, in order, and what is left lost past all of it. -/
structure Drained (b : Scoreboard) (m : ℕ) (sent : List SegRef) (c : Scoreboard) : Prop where
  sound : Sound c
  una : c.una = b.una ∧ c.unaOff = b.unaOff ∧ c.endOff = b.endOff
  len : ∀ r ∈ sent, 1 ≤ r.2.1 ∧ r.2.1 ≤ m
  ascending : sent.Pairwise fun x y => b.off x.1 + x.2.1 ≤ b.off y.1
  past : ∀ r ∈ sent, ∀ o, LostByte c o → b.off r.1 + r.2.1 ≤ o
  lostByte : ∀ o, LostByte b o ↔ LostByte c o ∨ ∃ r ∈ sent, b.off r.1 ≤ o ∧ o < b.off r.1 + r.2.1
  count : c.lost + sent.length ≤ b.lost

theorem drained_nil (hb : Sound b) : Drained b m [] b :=
  ⟨hb, ⟨rfl, rfl, rfl⟩, by simp, .nil, by simp, by simp, by simp⟩

/-- What is offered next, in a scoreboard that has the bytes outstanding where `b` had them. -/
theorem Drained.offer {sent : List SegRef} {r : SegRef} (h : Drained b m sent c)
    (hroom : b.endOff < b.unaOff + 2 ^ 32) (hm : 1 ≤ m) (hr : c.nextLost m = some r)
      (now : Instant) (tsval : Seq) :
    1 ≤ r.2.1 ∧ r.2.1 ≤ m ∧ Sent c (c.onRetransmit r.1 r.2.1 now tsval) (b.off r.1) r.2.1 := by
  obtain ⟨huna, hoff, hend⟩ := h.una
  have hroom' : c.endOff < c.unaOff + 2 ^ 32 := by omega
  rcases nextLost_spec h.sound hroom' hm with ⟨hnone, -⟩ | ⟨r', pre, s, rest, post, e, hr', hoffer⟩
  · rw [hr] at hnone
    cases hnone
  · obtain rfl : r = r' := Option.some.inj (hr.symm.trans hr')
    have hs := h.sound.books.tiles.mem_bounds (show s ∈ c.segs by simp [hoffer.segs])
    have hstart : b.off r.1 = s.start := by
      have hseq : c.seqOf s.start = b.seqOf s.start := by simp only [Scoreboard.seqOf, huna, hoff]
      rw [hoffer.seq, hseq, off_seqOf (by omega) (by omega)]
    rw [hstart]
    exact ⟨hoffer.len.1, hoffer.len.2.1, hoffer.sent h.sound hroom' now tsval⟩

theorem Drained.next {sent : List SegRef} {r : SegRef} (h : Drained b m sent c)
    (hroom : b.endOff < b.unaOff + 2 ^ 32) (hm : 1 ≤ m) (hr : c.nextLost m = some r) :
    Drained b m (sent ++ [r]) (c.onRetransmit r.1 r.2.1 now tsval) := by
  obtain ⟨hlen1, hlenm, hsent⟩ := h.offer hroom hm hr now tsval
  obtain ⟨h1, h2, h3⟩ := hsent.una
  refine ⟨hsent.sound, ⟨h1.trans h.una.1, h2.trans h.una.2.1, h3.trans h.una.2.2⟩, ?_, ?_, ?_, ?_, ?_⟩
  · intro x hx
    rcases List.mem_append.mp hx with hx | hx
    · exact h.len x hx
    · obtain rfl := List.mem_singleton.mp hx
      exact ⟨hlen1, hlenm⟩
  · refine List.pairwise_append.mpr ⟨h.ascending, List.pairwise_singleton _ _, ?_⟩
    intro x hx y hy
    obtain rfl := List.mem_singleton.mp hy
    exact h.past x hx _ (hsent.range _ le_rfl (by omega))
  · intro x hx o ho
    obtain ⟨hold, hout⟩ := (hsent.lostByte o).mp ho
    rcases List.mem_append.mp hx with hx | hx
    · exact h.past x hx o hold
    · obtain rfl := List.mem_singleton.mp hx
      have := hsent.first o hold
      omega
  · intro o
    rw [h.lostByte o, hsent.lostByte o]
    simp only [List.mem_append, List.mem_singleton, or_and_right, exists_or, exists_eq_left]
    by_cases hin : b.off r.1 ≤ o ∧ o < b.off r.1 + r.2.1
    · simp [hsent.range o hin.1 hin.2, hin]
    · simp only [hin, not_false_eq_true, and_true, or_false]
  · have h4 := h.count
    have h5 := hsent.lost
    rw [List.length_append, List.length_singleton]
    omega

theorem drain_succ (clock : ℕ → Instant × Seq) (k : ℕ) :
    (((drain m clock b k).2.nextLost m = none ∧ drain m clock b (k + 1) = drain m clock b k) ∨
      ∃ r, (drain m clock b k).2.nextLost m = some r ∧ drain m clock b (k + 1) =
        ((drain m clock b k).1 ++ [r],
          (drain m clock b k).2.onRetransmit r.1 r.2.1 (clock k).1 (clock k).2)) := by
  rw [drain]
  cases hr : (drain m clock b k).2.nextLost m with
  | none => exact .inl ⟨rfl, rfl⟩
  | some r => exact .inr ⟨r, rfl, rfl⟩

theorem drained_drain (hb : Sound b) (hroom : b.endOff < b.unaOff + 2 ^ 32) (hm : 1 ≤ m)
    (clock : ℕ → Instant × Seq) (k : ℕ) : Drained b m (drain m clock b k).1 (drain m clock b k).2 := by
  induction k with
  | zero => exact drained_nil hb
  | succ k ih =>
    rcases drain_succ (b := b) (m := m) clock k with ⟨-, heq⟩ | ⟨r, hr, heq⟩
    · rw [heq]
      exact ih
    · rw [heq]
      exact ih.next hroom hm hr

/-- As long as there is something to send, every turn sends. -/
theorem drain_length (clock : ℕ → Instant × Seq) (k : ℕ) :
    (drain m clock b k).2.nextLost m = none ∨ (drain m clock b k).1.length = k := by
  induction k with
  | zero => exact .inr rfl
  | succ k ih =>
    rcases drain_succ (b := b) (m := m) clock k with ⟨hnone, heq⟩ | ⟨r, hr, heq⟩
    · rw [heq]
      exact .inl hnone
    · rcases ih with hnone | hlen
      · rw [hr] at hnone
        cases hnone
      · right
        rw [heq, List.length_append, List.length_singleton, hlen]

theorem drain_stays (clock : ℕ → Instant × Seq) {k : ℕ} (h : (drain m clock b n).2.nextLost m =
    none) (hk : n ≤ k) :
    drain m clock b k = drain m clock b n := by
  induction k, hk using Nat.le_induction with
  | base => rfl
  | succ k _ ih =>
    rcases drain_succ (b := b) (m := m) clock k with ⟨-, heq⟩ | ⟨r, hr, -⟩
    · exact heq.trans ih
    · rw [ih, h] at hr
      cases hr

/-- Sending again what is lost, up to `m` bytes at a time, comes to an end; the ranges sent ascend, no two
meet, and together they are the bytes that were lost; and each turn takes its range off what is lost, adds
it to what is in the network, and changes nothing else. -/
theorem drain_covers_lost (b : Scoreboard) (hb : Sound b) (hroom : b.endOff < b.unaOff + 2 ^ 32)
    (m : ℕ) (hm : 1 ≤ m)
    (clock : ℕ → Instant × Seq) :
    (∃ n, (drain m clock b n).2.nextLost m = none ∧ ∀ k ≥ n, drain m clock b k = drain m clock b n) ∧
    (∀ n, (drain m clock b n).2.nextLost m = none →
      (drain m clock b n).1.Pairwise (fun x y => b.off x.1 + x.2.1 ≤ b.off y.1) ∧
      (∀ r ∈ (drain m clock b n).1, 1 ≤ r.2.1 ∧ r.2.1 ≤ m) ∧
      ∀ o, b.LostByte o ↔ ∃ r ∈ (drain m clock b n).1, b.off r.1 ≤ o ∧ o < b.off r.1 + r.2.1) ∧
    ∀ k r, (drain m clock b k).2.nextLost m = some r →
      (drain m clock b (k + 1)).2.lostBytes + r.2.1 = (drain m clock b k).2.lostBytes ∧
      (drain m clock b (k + 1)).2.pipe = (drain m clock b k).2.pipe + r.2.1 ∧
      ∀ o, ((drain m clock b (k + 1)).2.SackedByte o ↔ (drain m clock b k).2.SackedByte o) ∧
        ((drain m clock b (k + 1)).2.LostByte o ↔
          (drain m clock b k).2.LostByte o ∧ ¬ (b.off r.1 ≤ o ∧ o < b.off r.1 + r.2.1)) := by
  refine ⟨?_, ?_, ?_⟩
  · have hend : (drain m clock b (b.lost + 1)).2.nextLost m = none := by
      rcases drain_length (b := b) (m := m) clock (b.lost + 1) with h | h
      · exact h
      · have := (drained_drain hb hroom hm clock (b.lost + 1)).count
        omega
    exact ⟨b.lost + 1, hend, fun k hk => drain_stays clock hend hk⟩
  · intro n hn
    have h := drained_drain hb hroom hm clock n
    obtain ⟨-, hoff, hend⟩ := h.una
    refine ⟨h.ascending, h.len, fun o => ?_⟩
    have hnone : ¬ LostByte (drain m clock b n).2 o := by
      rintro ⟨s, hs, hl, -⟩
      rcases nextLost_spec h.sound (by omega) hm with ⟨-, hall⟩ | ⟨r, _, _, _, _, _, hr, -⟩
      · rw [hall s hs] at hl
        cases hl
      · rw [hn] at hr
        cases hr
    rw [h.lostByte o]
    exact or_iff_right hnone
  · intro k r hr
    have h := drained_drain hb hroom hm clock k
    rcases drain_succ (b := b) (m := m) clock k with ⟨hnone, -⟩ | ⟨r', hr', heq⟩
    · rw [hr] at hnone
      cases hnone
    · obtain rfl : r = r' := Option.some.inj (hr.symm.trans hr')
      obtain ⟨-, -, hsent⟩ := h.offer hroom hm hr (clock k).1 (clock k).2
      obtain ⟨-, hoff, hend⟩ := h.una
      obtain ⟨-, hoff', hend'⟩ := hsent.una
      have hle := h.sound.books.sacked_add_lost_le
      have hlost := hsent.lost
      have hsacked := hsent.sacked
      rw [heq]
      simp only
      refine ⟨?_, ?_, fun o => ⟨hsent.sackedByte o, hsent.lostByte o⟩⟩
      · rw [lostBytes, lostBytes, Nat.mod_eq_of_lt (by omega), Nat.mod_eq_of_lt (by omega), hlost]
      · rw [pipe, pipe, Nat.mod_eq_of_lt (by omega), Nat.mod_eq_of_lt (by omega)]
        omega

/-- Two aggregates and a FIN; part of the second is SACKed, and the rest of it all is lost. -/
def lostAggregates : List ScoreOp :=
  [.setMss 1000, .send 3000 false 1 0, .send 4000 false 2 0, .send 0 true 3 0, .sack [⟨4000, 5000⟩] 10 none,
    .markAllLost]

theorem drain_covers_lost_aggregates :
    ∃ s, run Ledger.step (Ledger.init 0 0 true) lostAggregates = some s ∧
      (drain 1500 (fun k => (20 + k, 0)) s.board 6).1 =
        [(0, 1500, false), (1500, 1500, false), (3000, 1000, false), (5000, 1500, false), (6500, 500, false),
          (7000, 1, true)] ∧
      ∃ n, (drain 1500 (fun k => (20 + k, 0)) s.board n).2.nextLost 1500 = none := by
  refine exists_of_any (P := fun s =>
    (∀ g ∈ s.board.segs, g.fin = true → g.stop = s.board.endOff ∧ g.stop = g.start + 1) ∧
      (drain 1500 (fun k => (20 + k, 0)) s.board 6).1 =
        [(0, 1500, false), (1500, 1500, false), (3000, 1000, false), (5000, 1500, false), (6500, 500, false),
          (7000, 1, true)]) (by decide +kernel) ?_
  rintro s hs ⟨hfin, hsent⟩
  obtain ⟨hbooks, hroom⟩ := Ledger.inv_run hs
  obtain ⟨⟨n, hn, -⟩, -⟩ := drain_covers_lost s.board ⟨hbooks, hfin⟩ hroom 1500 (by decide) fun k => (20 + k, 0)
  exact ⟨hsent, n, hn⟩

end Scoreboard

end PktKit.Vtcp
