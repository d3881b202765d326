import PktKit.Foundations.Tilings
import PktKit.Vtcp.Scoreboard.Operations

/-! # The scoreboard's books

The segments tile what is outstanding, and the counters and the set of lost starts
say what the segments say. A stretch of segments may be replaced as long as the
counters follow.
-/

namespace PktKit.Vtcp
open Foundations.OrdSets Foundations.Tilings

def bytesOf (p : Seg → Bool) (l : List Seg) : ℕ := ((l.filter p).map Seg.len).sum

section

variable (p : Seg → Bool) (s : Seg) (l m : List Seg)

@[simp] theorem bytesOf_nil : bytesOf p [] = 0 := rfl

@[simp] theorem bytesOf_cons : bytesOf p (s :: l) = (if p s then s.len else 0) + bytesOf p l := by
  cases h : p s <;> simp [bytesOf, h]

@[simp] theorem bytesOf_append : bytesOf p (l ++ m) = bytesOf p l + bytesOf p m := by simp [bytesOf]

end

def LostStart (l : List Seg) (x : ℕ) : Prop := ∃ s ∈ l, s.lost = true ∧ s.start = x

theorem lostStart_append {l m : List Seg} {x : ℕ} :
    LostStart (l ++ m) x ↔ LostStart l x ∨ LostStart m x := by
  simp [LostStart, or_and_right, exists_or]

@[simp] theorem lostStart_nil {x : ℕ} : ¬ LostStart [] x := by simp [LostStart]

@[simp] theorem lostStart_cons {s : Seg} {l : List Seg} {x : ℕ} :
    LostStart (s :: l) x ↔ (s.lost = true ∧ s.start = x) ∨ LostStart l x := by simp [LostStart]

namespace Scoreboard

variable {b b' : Scoreboard} {i cut : ℕ} {s : Seg}

/-- The redundant summaries agree with the segments. -/
structure Books (b : Scoreboard) : Prop where
  tiles : Tiles Seg.start Seg.stop b.unaOff b.segs b.endOff
  excl : ∀ s ∈ b.segs, s.sacked = true → s.lost = false
  sacked_eq : b.sacked = bytesOf Seg.sacked b.segs
  sackedSegs_eq : b.sackedSegs = b.segs.countP Seg.sacked
  lost_eq : b.lost = bytesOf Seg.lost b.segs
  mem_lostSet : ∀ x, x ∈ b.lostSet ↔ LostStart b.segs x
  sorted : b.lostSet.Pairwise (· < ·)

theorem endOff_eq_of_tiles {a e : ℕ} {l : List Seg} (h : Tiles Seg.start Seg.stop a l e) :
    (l.getLast?.map Seg.stop).getD a = e := by
  rcases List.eq_nil_or_concat l with rfl | ⟨init, x, rfl⟩
  · exact h
  · obtain ⟨c, -, -, -, h4⟩ := tiles_append.mp (by simpa using h)
    simpa using h4

theorem books_new (una : Seq) (now : Instant) : Books (new una now) := by
  constructor <;> simp [new, endOff, LostStart]

theorem bytesOf_add_le {a e : ℕ} {l : List Seg} (h : Tiles Seg.start Seg.stop a l e)
    (hx : ∀ s ∈ l, s.sacked = true → s.lost = false) :
    a + (bytesOf Seg.sacked l + bytesOf Seg.lost l) ≤ e := by
  induction l generalizing a with
  | nil => simpa using h.le
  | cons s l ih =>
    obtain ⟨h1, h2, h3⟩ := h
    have h4 := ih h3 fun t ht => hx t (List.mem_cons_of_mem _ ht)
    have h5 := hx s List.mem_cons_self
    simp only [bytesOf_cons, Seg.len]
    cases hs : s.sacked <;> cases hl : s.lost <;> simp [hs, hl] at h5 ⊢ <;> omega

theorem Books.sacked_add_lost_le (h : Books b) : b.unaOff + (b.sacked + b.lost) ≤ b.endOff := by
  rw [h.sacked_eq, h.lost_eq]
  exact bytesOf_add_le h.tiles h.excl

/-- Replace a stretch of segments by another tiling of the same interval. -/
theorem Books.replace (h : Books b) {pre mid post mid' : List Seg} (hs : b.segs = pre ++ mid ++ post)
    (hs' : b'.segs = pre ++ mid' ++ post) (hu : b'.unaOff = b.unaOff)
    (ht : ∀ c d, Tiles Seg.start Seg.stop c mid d → Tiles Seg.start Seg.stop c mid' d)
    (hx : ∀ s ∈ mid', s.sacked = true → s.lost = false)
    (hsk : b'.sacked + bytesOf Seg.sacked mid = b.sacked + bytesOf Seg.sacked mid')
    (hct : b'.sackedSegs + mid.countP Seg.sacked = b.sackedSegs + mid'.countP Seg.sacked)
    (hlo : b'.lost + bytesOf Seg.lost mid = b.lost + bytesOf Seg.lost mid')
    (hset : ∀ x, x ∈ b'.lostSet ↔ (x ∈ b.lostSet ∧ ¬ LostStart mid x) ∨ LostStart mid' x)
    (hso : b'.lostSet.Pairwise (· < ·)) : Books b' ∧ b'.endOff = b.endOff := by
  have htiles := h.tiles
  rw [hs] at htiles
  obtain ⟨c, d, h1, h2, h3⟩ := htiles.split
  have hnew : Tiles Seg.start Seg.stop b'.unaOff b'.segs b.endOff := by
    rw [hs', hu]
    exact h1.join (ht c d h2) h3
  have hend : b'.endOff = b.endOff := endOff_eq_of_tiles hnew
  -- a start outside the stretch is no start inside it
  have hout : ∀ x, LostStart pre x ∨ LostStart post x → ¬ LostStart mid x := by
    rintro x hx ⟨t, htm, -, rfl⟩
    have h4 := h2.mem_bounds htm
    rcases hx with ⟨u, hu, -, hux⟩ | ⟨u, hu, -, hux⟩
    · have h5 := h1.mem_bounds hu
      omega
    · have h5 := h3.mem_bounds hu
      omega
  refine ⟨⟨hend ▸ hnew, ?_, ?_, ?_, ?_, ?_, hso⟩, hend⟩
  · intro t ht'
    rw [hs', List.mem_append, List.mem_append] at ht'
    rcases ht' with (ht' | ht') | ht'
    · exact h.excl t (by simp [hs, ht'])
    · exact hx t ht'
    · exact h.excl t (by simp [hs, ht'])
  · have := h.sacked_eq
    rw [hs] at this
    rw [hs']
    simp only [bytesOf_append] at this ⊢
    omega
  · have := h.sackedSegs_eq
    rw [hs] at this
    rw [hs']
    simp only [List.countP_append] at this ⊢
    omega
  · have := h.lost_eq
    rw [hs] at this
    rw [hs']
    simp only [bytesOf_append] at this ⊢
    omega
  · intro x
    have hmem := h.mem_lostSet x
    rw [hs, lostStart_append, lostStart_append] at hmem
    rw [hset x, hmem, hs', lostStart_append, lostStart_append]
    have := hout x
    tauto

theorem segs_eq (hs : b.segs[i]? = some s) : b.segs = b.segs.take i ++ [s] ++ b.segs.drop (i + 1) := by
  obtain ⟨hi, rfl⟩ := List.getElem?_eq_some_iff.mp hs
  simp

theorem Books.bounds (h : Books b) (hs : b.segs[i]? = some s) :
    b.unaOff ≤ s.start ∧ s.start < s.stop ∧ s.stop ≤ b.endOff :=
  h.tiles.mem_bounds (List.mem_of_getElem? hs)

theorem Books.start_mono (hb : Books b) {j : ℕ} {t : Seg} (hs : b.segs[i]? = some s)
    (ht : b.segs[j]? = some t) (hij : i ≤ j) : s.start ≤ t.start := by
  obtain ⟨hi, rfl⟩ := List.getElem?_eq_some_iff.mp hs
  obtain ⟨hj, rfl⟩ := List.getElem?_eq_some_iff.mp ht
  rcases Nat.lt_or_eq_of_le hij with hlt | rfl
  · have h1 := List.pairwise_iff_getElem.mp hb.tiles.pairwise i j hi hj hlt
    have h2 := (hb.bounds hs).2.1
    omega
  · rfl

theorem books_split (h : Books b) (hs : b.segs[i]? = some s) (h1 : s.start < cut) (h2 : cut < s.stop) :
    Books (b.split i cut) ∧ (b.split i cut).endOff = b.endOff := by
  have hsp : b.split i cut = { b.replaceAt i [{ s with stop := cut }, { s with start := cut }] with
      lostSet := if s.lost then put cut b.lostSet else b.lostSet
      sackedSegs := if s.sacked then b.sackedSegs + 1 else b.sackedSegs } := by
    simp only [split, hs]
  have hx := h.excl s (List.mem_of_getElem? hs)
  have hmem := (h.mem_lostSet s.start).mpr
  rw [hsp]
  refine h.replace (segs_eq hs) rfl rfl ?_ ?_ ?_ ?_ ?_ ?_ ?_
  · simp only [tiles_cons, tiles_nil]
    rintro c d ⟨rfl, -, rfl⟩
    simp [h1, h2]
  · simpa using hx
  · simp only [bytesOf_cons, bytesOf_nil, replaceAt, Seg.len]
    split <;> omega
  · simp only [List.countP_cons, List.countP_nil]
    split <;> omega
  · simp only [bytesOf_cons, bytesOf_nil, replaceAt, Seg.len]
    split <;> omega
  · intro x
    simp only [lostStart_cons, lostStart_nil, or_false]
    by_cases hl : s.lost = true
    · have hst := hmem ⟨s, List.mem_of_getElem? hs, hl, rfl⟩
      simp only [hl, if_true, mem_put, true_and]
      by_cases hxs : s.start = x
      · subst hxs; simp [hst]
      · simp only [hxs, not_false_eq_true, and_true, false_or]
        tauto
    · simp [hl]
  · change (if s.lost then put cut b.lostSet else b.lostSet).Pairwise (· < ·)
    split
    · exact sorted_put h.sorted
    · exact h.sorted

theorem unlose_frame (b : Scoreboard) (s : Seg) :
    ∃ lost lostSet, b.unlose s = { b with lost := lost, lostSet := lostSet } := by
  rw [unlose]
  split
  · exact ⟨_, _, rfl⟩
  · exact ⟨b.lost, b.lostSet, rfl⟩

theorem resendAt_eq (hs : b.segs[i]? = some s) (now : Instant) (tsval : Seq) :
    ∃ rate snapshot, rate.delivered = b.rate.delivered ∧ b.resendAt i now tsval =
      { b with
        segs := b.segs.take i ++ [{ s with lost := false, retrans := true, xmit := b.ns now,
                                           tsval := tsval, tx := b.nextTx, rate := snapshot }] ++
          b.segs.drop (i + 1)
        lost := (b.unlose s).lost
        lostSet := (b.unlose s).lostSet
        nextTx := b.nextTx + 1
        rate := rate
        tq := if b.rackOn then b.tq ++ [⟨s.start, s.stop, b.ns now, b.nextTx⟩] else b.tq } := by
  obtain ⟨lost, lostSet, hu⟩ := unlose_frame b s
  refine ⟨(b.rate.onSend (b.ns now) ((b.unlose s).pipe - s.len % 2 ^ 32) (s.len % 2 ^ 32)).1,
    (b.rate.onSend (b.ns now) ((b.unlose s).pipe - s.len % 2 ^ 32) (s.len % 2 ^ 32)).2, by simp, ?_⟩
  simp only [resendAt, hs, hu, replaceAt, pushTx]
  split <;> rfl

theorem sackAt_eq (hs : b.segs[i]? = some s) (now : ℕ) (ecr : Option Seq) (d : Delivery) :
    ∃ rate rack, rate.delivered = b.rate.delivered + s.len ∧ b.sackAt i now ecr d =
      ({ b with
          segs := b.segs.take i ++ [{ s with sacked := true, lost := false }] ++ b.segs.drop (i + 1)
          lost := (b.unlose s).lost
          lostSet := (b.unlose s).lostSet
          sacked := b.sacked + s.len
          sackedSegs := b.sackedSegs + 1
          rate := rate
          rack := rack },
        d.note s.len (b.seqOf s.stop) !s.retrans) := by
  obtain ⟨lost, lostSet, hu⟩ := unlose_frame b s
  refine ⟨b.rate.onDelivered s.rate s.xmit s.stop s.len now, rackDelivered b.rack s now ecr, by simp, ?_⟩
  simp only [sackAt, hs, hu, deliverSeg, replaceAt]
  rfl

theorem markLost_eq (hs : b.segs[i]? = some s) (hl : s.lost = false) (hk : s.sacked = false) :
    b.markLost i = ({ b.replaceAt i [{ s with lost := true }] with
        lost := b.lost + s.len
        rate := b.rate.onLost s.len
        lostLog := b.lostLog.map fun log => log ++ [(s.rate, s.len % 2 ^ 32)]
        lostSet := put s.start b.lostSet }, true) := by
  simp [markLost, hs, hl, hk]

theorem Books.lost_ge (h : Books b) (hs : b.segs[i]? = some s) (hl : s.lost = true) : s.len ≤ b.lost := by
  rw [h.lost_eq, segs_eq hs]
  simp [hl]
  omega

/-- Taking segment `s` off the lost ones, as a change of the counters. -/
theorem Books.unlose (h : Books b) (hs : b.segs[i]? = some s) :
    (b.unlose s).lost + (if s.lost then s.len else 0) = b.lost ∧
      (∀ x, x ∈ (b.unlose s).lostSet ↔ x ∈ b.lostSet ∧ ¬ LostStart [s] x) ∧
      (b.unlose s).lostSet.Pairwise (· < ·) := by
  have hle := h.lost_ge hs
  rw [Scoreboard.unlose]
  cases hl : s.lost
  · simpa [hl] using h.sorted
  · have := hle hl
    refine ⟨by simp; omega, fun x => ?_, sorted_remove h.sorted⟩
    simp [hl, eq_comm]

theorem books_mergeNext (h : Books b) (hm : b.mergeable i = true) :
    Books (b.mergeNext i) ∧ (b.mergeNext i).endOff = b.endOff := by
  simp only [mergeable] at hm
  split at hm
  · rename_i a c ha hc
    simp only [Bool.and_eq_true, beq_iff_eq, Bool.not_eq_true'] at hm
    obtain ⟨⟨⟨⟨⟨htx, hsk⟩, hlo⟩, hfi⟩, hsk0⟩, hfi0⟩ := hm
    have hsegs : b.segs = b.segs.take i ++ [a, c] ++ b.segs.drop (i + 2) := by
      have h1 := segs_eq ha
      have h2 : b.segs.drop (i + 1) = c :: b.segs.drop (i + 2) := by
        obtain ⟨hi, rfl⟩ := List.getElem?_eq_some_iff.mp hc
        exact List.drop_eq_getElem_cons hi
      rw [h2] at h1
      simpa using h1
    have hmg : b.mergeNext i = { b with
        segs := b.segs.take i ++ [{ a with stop := c.stop, retrans := a.retrans || c.retrans }] ++
          b.segs.drop (i + 2)
        lostSet := if c.lost then remove c.start b.lostSet else b.lostSet } := by
      simp [mergeNext, ha, hc]
    have hab := h.bounds ha
    have hcb := h.bounds hc
    have htl := h.tiles
    rw [hsegs] at htl
    obtain ⟨x, y, -, hmid, -⟩ := htl.split
    simp only [tiles_cons, tiles_nil] at hmid
    rw [hmg]
    refine h.replace hsegs rfl rfl ?_ ?_ ?_ ?_ ?_ ?_ ?_
    · simp only [tiles_cons, tiles_nil]
      rintro u v ⟨rfl, h1, h2, h3, rfl⟩
      exact ⟨rfl, by omega, rfl⟩
    · simp [hsk0]
    · simp [hsk0, ← hsk]
    · simp [hsk0, ← hsk]
    · simp only [bytesOf_cons, bytesOf_nil, Seg.len, ← hlo]
      split <;> omega
    · intro z
      simp only [lostStart_cons, lostStart_nil, or_false, ← hlo]
      have hin := (h.mem_lostSet a.start).mpr
      cases hl : a.lost
      · simp
      · have := hin ⟨a, List.mem_of_getElem? ha, hl, rfl⟩
        simp only [if_true, mem_remove, true_and, ne_eq, not_or]
        by_cases haz : a.start = z
        · subst haz
          simp [this]
          omega
        · simp [haz, eq_comm]
    · change (if c.lost then remove c.start b.lostSet else b.lostSet).Pairwise (· < ·)
      split
      · exact sorted_remove h.sorted
      · exact h.sorted
  · cases hm

theorem books_resendAt (h : Books b) (hs : b.segs[i]? = some s) (now : Instant) (tsval : Seq) :
    Books (b.resendAt i now tsval) ∧ (b.resendAt i now tsval).endOff = b.endOff := by
  obtain ⟨rate, snapshot, -, heq⟩ := resendAt_eq hs now tsval
  obtain ⟨h1, h2, h3⟩ := h.unlose hs
  rw [heq]
  refine h.replace (segs_eq hs) rfl rfl ?_ ?_ ?_ ?_ ?_ ?_ h3
  · simp
  · simp
  · simp [Seg.len]
  · simp
  · simpa using h1
  · simpa using h2

theorem books_sackAt (h : Books b) (hs : b.segs[i]? = some s) (hk : s.sacked = false) (now : ℕ)
    (ecr : Option Seq) (d : Delivery) :
    Books (b.sackAt i now ecr d).1 ∧ (b.sackAt i now ecr d).1.endOff = b.endOff := by
  obtain ⟨rate, rack, -, heq⟩ := sackAt_eq hs now ecr d
  obtain ⟨h1, h2, h3⟩ := h.unlose hs
  rw [heq]
  refine h.replace (segs_eq hs) rfl rfl ?_ ?_ ?_ ?_ ?_ ?_ h3
  · simp
  · simp
  · simp [hk, Seg.len]
  · simp [hk]
  · simpa using h1
  · simpa using h2

theorem books_markLost (h : Books b) (hs : b.segs[i]? = some s) (hl : s.lost = false)
    (hk : s.sacked = false) :
    Books (b.markLost i).1 ∧ (b.markLost i).1.endOff = b.endOff := by
  rw [markLost_eq hs hl hk]
  refine h.replace (segs_eq hs) rfl rfl ?_ ?_ ?_ ?_ ?_ ?_ (sorted_put h.sorted)
  · simp
  · simp [hk]
  · simp [hk, replaceAt]
  · simp [hk, replaceAt]
  · simp [hl, Seg.len]
  · simp [hl, eq_comm, or_comm]

end Scoreboard

end PktKit.Vtcp
