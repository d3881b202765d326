import PktKit.Vtcp.Scoreboard.Ledger
import PktKit.Vtcp.Scoreboard.Sacking

/-! # What feedback can do to the records

A receiver chooses what it acknowledges. Whatever it sends between two
transmissions, the records stay as large as the segments they stand for: counted
in units of one MSS they never get more, since a SACK cuts only between whole
units.
-/

namespace PktKit.Vtcp
open Foundations.Runs Foundations.Tilings Relation

/-- How many segments of `m` bytes it takes to send `s`. -/
def Seg.units (m : ℕ) (s : Seg) : ℕ := (s.len + m - 1) / m

/-- How many it takes to send each of a list. -/
def unitsOf (m : ℕ) (l : List Seg) : ℕ := (l.map (Seg.units m)).sum

/-- The block reports the byte numbered `q`: it comes up on the way from its left edge to its right one. -/
def SackBlock.covers (k : SackBlock) (q : Seq) : Prop := (q - k.left).toNat < (k.right - k.left).toNat

instance (k : SackBlock) (q : Seq) : Decidable (k.covers q) := inferInstanceAs (Decidable (_ < _))

/-- What an acknowledgement tells the scoreboard. -/
inductive AckOp where
  | ack (a : Seq) (now : Instant) (ecr : Option Seq)
  | sack (blocks : List SackBlock) (now : Instant) (ecr : Option Seq)

def AckOp.blocks : AckOp → List SackBlock
  | .ack .. => []
  | .sack blocks .. => blocks

section units

variable {m : ℕ} {s : Seg} {l : List Seg}

@[simp] theorem unitsOf_nil : unitsOf m [] = 0 := rfl

@[simp] theorem unitsOf_cons : unitsOf m (s :: l) = s.units m + unitsOf m l := rfl

@[simp] theorem unitsOf_append {l' : List Seg} : unitsOf m (l ++ l') = unitsOf m l + unitsOf m l' := by
  simp [unitsOf]

/-- A whole number of units in front adds that number. -/
theorem div_up_mul_add (hm : 0 < m) (k x : ℕ) : (k * m + x + m - 1) / m = k + (x + m - 1) / m := by
  have h : k * m + x + m - 1 = (x + m - 1) + k * m := by omega
  rw [h, Nat.add_mul_div_right _ _ hm, Nat.add_comm]

theorem Seg.units_mono {t : Seg} (h : t.len ≤ s.len) : t.units m ≤ s.units m :=
  Nat.div_le_div_right (by omega)

theorem Seg.units_pos (hm : 0 < m) (h : s.start < s.stop) : 0 < s.units m :=
  Nat.div_pos (by simp only [Seg.len]; omega) hm

theorem length_le_unitsOf (hm : 0 < m) {a e : ℕ} (h : Tiles Seg.start Seg.stop a l e) :
    l.length ≤ unitsOf m l := by
  induction l generalizing a with
  | nil => simp
  | cons s l ih =>
    obtain ⟨-, hlt, hrest⟩ := h
    have h1 := ih hrest
    have h2 := Seg.units_pos hm hlt
    simp only [List.length_cons, unitsOf_cons]
    omega

/-- A unit begun by each record, and the whole ones. -/
theorem unitsOf_le (hm : 0 < m) {a e : ℕ} (h : Tiles Seg.start Seg.stop a l e) :
    unitsOf m l ≤ l.length + (e - a) / m := by
  induction l generalizing a with
  | nil => simp
  | cons s l ih =>
    obtain ⟨rfl, hlt, hrest⟩ := h
    have hle := hrest.le
    have h1 : s.units m ≤ s.len / m + 1 := by
      have h := Nat.div_le_div_right (c := m) (show s.len + m - 1 ≤ s.len + m by omega)
      rwa [Nat.add_div_right _ hm] at h
    have h2 : s.len / m + (e - s.stop) / m ≤ (e - s.start) / m := by
      have h := @Nat.div_add_div_le_add_div s.len (e - s.stop) m
      have hsum : s.len + (e - s.stop) = e - s.start := by simp only [Seg.len]; omega
      rwa [hsum] at h
    have h3 := ih hrest
    simp only [unitsOf_cons, List.length_cons]
    omega

end units

namespace Scoreboard

variable {b c c' : Scoreboard} {d : Delivery} {s t : Seg} {l pre post : List Seg} {i lo hi x : ℕ}
  {ks ks' : List SackBlock}

def heed (b : Scoreboard) : AckOp → Scoreboard
  | .ack a now ecr => (b.ack a now ecr).1
  | .sack blocks now ecr => (b.sack blocks now ecr).1

/-- The parts a SACK leaves of a segment take as many units as it did. -/
theorem unitsOf_pieces (hm : 0 < b.mss) {l r : ℕ} (h : Aligned b s l r lo hi) :
    unitsOf b.mss (pieces s lo hi) = s.units b.mss := by
  obtain ⟨h1, h2, h3⟩ := h.bounds
  obtain ⟨k, hk⟩ := h.left
  have front : unitsOf b.mss (if s.start < lo then [{ s with stop := lo }] else []) = k := by
    split
    · have hlen : lo - s.start = k * b.mss + 0 := by omega
      have h0 : (0 + b.mss - 1) / b.mss = 0 := Nat.div_eq_of_lt (by omega)
      simp only [unitsOf_cons, unitsOf_nil, Seg.units, Seg.len, hlen, div_up_mul_add hm, h0]
      omega
    · obtain rfl : k = 0 := by
        by_contra hne
        have := Nat.mul_pos (Nat.pos_of_ne_zero hne) hm
        omega
      rfl
  rw [pieces, unitsOf_append, front, unitsOf_cons]
  rcases h.right with rfl | ⟨j, hj⟩
  · have hlen : s.stop - s.start = k * b.mss + (s.stop - lo) := by omega
    simp only [lt_irrefl, if_false, unitsOf_nil, Seg.units, Seg.len, hlen, div_up_mul_add hm]
    omega
  · have hkj : k * b.mss + (j - k) * b.mss = j * b.mss := by
      have hle : k ≤ j := by
        by_contra hlt
        have := Nat.mul_le_mul_right b.mss (Nat.le_of_lt (Nat.lt_of_not_le hlt))
        omega
      rw [← Nat.add_mul, Nat.add_sub_cancel' hle]
    have hlen : s.stop - s.start = k * b.mss + ((j - k) * b.mss + (s.stop - hi)) := by omega
    have hmid : hi - lo = (j - k) * b.mss + 0 := by omega
    have h0 : (0 + b.mss - 1) / b.mss = 0 := Nat.div_eq_of_lt (by omega)
    split
    · simp only [unitsOf_cons, unitsOf_nil, Seg.units, Seg.len, hlen, hmid, div_up_mul_add hm, h0]
      omega
    · obtain rfl : hi = s.stop := by omega
      simp only [unitsOf_nil, Seg.units, Seg.len, hlen, hmid, div_up_mul_add hm, h0, Nat.sub_self]

/-- `c` came of `b` by feedback that reported `ks`. -/
structure Carved (ks : List SackBlock) (b c : Scoreboard) : Prop where
  books : Books c
  mss : c.mss = b.mss
  una : b.unaOff ≤ c.unaOff
  flight : c.endOff = max b.endOff c.unaOff
  seqOf : ∀ o ≥ c.unaOff, c.seqOf o = b.seqOf o
  units : unitsOf b.mss c.segs ≤ unitsOf b.mss b.segs
  /-- a record is a part of one there was, and all of it that is left if that was no longer than one MSS -/
  within : ∀ t ∈ c.segs, ∃ s ∈ b.segs, s.start ≤ t.start ∧ t.stop ≤ s.stop ∧
    (s.len ≤ b.mss → t.start = max s.start c.unaOff ∧ t.stop = s.stop) ∧
    (t.sacked = true → s.sacked = true ∨ ∀ o, t.start ≤ o → o < t.stop → ∃ k ∈ ks, k.covers (b.seqOf o))

theorem Carved.refl (hb : Books b) : Carved ks b b where
  books := hb
  mss := rfl
  una := le_rfl
  flight := (Nat.max_eq_left hb.tiles.le).symm
  seqOf := fun _ _ => rfl
  units := le_rfl
  within := fun t ht => by
    have := (hb.tiles.mem_bounds ht).1
    exact ⟨t, ht, le_rfl, le_rfl, fun _ => ⟨by omega, rfl⟩, .inl⟩

theorem Carved.mono (h : Carved ks b c) (hks : ks ⊆ ks') : Carved ks' b c where
  books := h.books
  mss := h.mss
  una := h.una
  flight := h.flight
  seqOf := h.seqOf
  units := h.units
  within := fun t ht => by
    obtain ⟨s, hs, h1, h2, h3, h4⟩ := h.within t ht
    refine ⟨s, hs, h1, h2, h3, fun hk => (h4 hk).imp_right fun h5 o ho1 ho2 => ?_⟩
    obtain ⟨k, hkm, hkc⟩ := h5 o ho1 ho2
    exact ⟨k, hks hkm, hkc⟩

theorem Carved.trans (h : Carved ks b c) (h' : Carved ks c c') : Carved ks b c' where
  books := h'.books
  mss := h'.mss.trans h.mss
  una := h.una.trans h'.una
  flight := by
    have h1 := h.flight
    have h2 := h'.flight
    have h3 := h'.una
    omega
  seqOf := fun o ho => (h'.seqOf o ho).trans (h.seqOf o (h'.una.trans ho))
  units := by
    have h1 := h'.units
    rw [h.mss] at h1
    exact h1.trans h.units
  within := fun t ht => by
    obtain ⟨u, hu, h1, h2, h3, h4⟩ := h'.within t ht
    obtain ⟨s, hs, g1, g2, g3, g4⟩ := h.within u hu
    have hua := (h.books.tiles.mem_bounds hu).1
    refine ⟨s, hs, g1.trans h1, h2.trans g2, ?_, ?_⟩
    · intro hlen
      obtain ⟨e1, e2⟩ := g3 hlen
      obtain ⟨f1, f2⟩ := h3 (by rw [h.mss]; simp only [Seg.len] at hlen ⊢; omega)
      have := h'.una
      exact ⟨by omega, f2.trans e2⟩
    · intro hk
      rcases h4 hk with hk | hk
      · exact (g4 hk).imp_right fun h5 o ho1 ho2 => h5 o (h1.trans ho1) (lt_of_lt_of_le ho2 h2)
      · right
        intro o ho1 ho2
        rw [← h.seqOf o (by omega)]
        exact hk o ho1 ho2

theorem Turn.carved {ranges : List (ℕ × ℕ)} (h : Turn ranges b c) (hb : Books b) (hm : 0 < b.mss)
    (hks : ∀ range ∈ ranges, ∀ o, range.1 ≤ o → o < range.2 → ∃ k ∈ ks, k.covers (b.seqOf o)) :
    Carved ks b c := by
  cases h with
  | @mk i s range lo hi now ecr d hs hk hrange hpart =>
    obtain ⟨pre, post, hsegs, rfl⟩ := segs_of_getElem? hs
    have hal := sackPart_aligned hm (hb.bounds hs).2.1 hpart
    obtain ⟨⟨hbooks, ⟨huna, hoff, hend, hmss⟩, hnew⟩, -⟩ := sackSome_cut hb hm hsegs hk hpart now ecr d
    refine ⟨hbooks, hmss, hoff.ge, ?_, ?_, ?_, ?_⟩
    · have := hb.tiles.le
      omega
    · intro o _
      simp only [seqOf, huna, hoff]
    · rw [hnew, hsegs]
      simp only [unitsOf_append, unitsOf_cons, unitsOf_pieces hm hal]
      omega
    · intro t ht
      have hunat := (hbooks.tiles.mem_bounds ht).1
      rw [hnew, List.mem_append, List.mem_append] at ht
      have old : t ∈ b.segs → ∃ s ∈ b.segs, s.start ≤ t.start ∧ t.stop ≤ s.stop ∧
          (s.len ≤ b.mss → t.start = max s.start (b.sackSome pre.length lo hi now ecr d).1.unaOff ∧
            t.stop = s.stop) ∧
          (t.sacked = true → s.sacked = true ∨
            ∀ o, t.start ≤ o → o < t.stop → ∃ k ∈ ks, k.covers (b.seqOf o)) :=
        fun ht => ⟨t, ht, le_rfl, le_rfl, fun _ => ⟨by omega, rfl⟩, .inl⟩
      rcases ht with ht | ht | ht
      · exact old (by simp [hsegs, ht])
      · obtain ⟨g1, g2, g3, g4⟩ := mem_pieces hal ht
        have hunas := (hb.bounds hs).1
        refine ⟨s, List.mem_of_getElem? hs, g1, g2, fun hlen => ?_, fun hsk => ?_⟩
        · obtain ⟨e1, e2⟩ := g3 hlen
          exact ⟨by omega, e2⟩
        · refine (g4 hsk).imp_right fun hin o ho1 ho2 => ?_
          exact hks range hrange o (hin.1.trans ho1) (lt_of_lt_of_le ho2 hin.2)
      · exact old (by simp [hsegs, ht])

theorem turns_carved {ranges : List (ℕ × ℕ)} (h : ReflTransGen (Turn ranges) b c) (hb : Books b) (hm : 0 < b.mss)
    (hks : ∀ range ∈ ranges, ∀ o, range.1 ≤ o → o < range.2 → ∃ k ∈ ks, k.covers (b.seqOf o)) :
    Carved ks b c ∧ c.una = b.una ∧ c.unaOff = b.unaOff := by
  induction h with
  | refl => exact ⟨.refl hb, rfl, rfl⟩
  | @tail c c' _ ht ih =>
    obtain ⟨hc, huna, hoff⟩ := ih
    obtain ⟨d, d', e⟩ := ht.edits (m := false) hc.books
    obtain ⟨huna', hoff', -⟩ := Edits.frame e
    have hc' : Carved ks c c' := by
      refine ht.carved hc.books (hc.mss ▸ hm) fun range hr o h1 h2 => ?_
      simp only [Scoreboard.seqOf, huna, hoff]
      exact hks range hr o h1 h2
    exact ⟨hc.trans hc', huna'.trans huna, hoff'.trans hoff⟩

/-- How far past SND.UNA the byte at an offset is. -/
theorem toNat_seqOf_sub {o : ℕ} (h1 : b.unaOff ≤ o) (h2 : o < b.unaOff + 2 ^ 32) :
    (b.seqOf o - b.una).toNat = o - b.unaOff := by
  have := off_seqOf h1 h2
  rw [off] at this
  omega

/-- What is left of a block clipped to what is in flight, it reports. -/
theorem clip_covers (hb : Books b) {k : SackBlock} {range : ℕ × ℕ} (hf : b.endOff < b.unaOff + 2 ^ 31)
    (h : b.clip k = some range) {o : ℕ} (h1 : range.1 ≤ o) (h2 : o < range.2) : k.covers (b.seqOf o) := by
  have hle := hb.tiles.le
  simp only [clip] at h
  split at h
  · cases h
  · rename_i hmeets
    simp only [Bool.or_eq_true, Bool.not_eq_true', not_or, Bool.not_eq_false, seqAfter_iff] at hmeets
    rw [Option.ite_none_right_eq_some, Option.some.injEq] at h
    obtain ⟨-, rfl⟩ := h
    -- the byte is no lower than SND.UNA, and the right edge is past it
    have hright : o < b.off k.right ∧ b.unaOff ≤ o := by
      simp only at h1 h2
      constructor
      · split at h2
        · rename_i hafter
          rw [seqAfter_iff, toNat_sub_of_sub _ _ b.una, endSeq, toNat_seqOf_sub hle (by omega)] at hafter
          rw [off]
          omega
        · exact h2
      · split at h1
        · exact h1
        · exact (Nat.le_add_right _ _).trans h1
    rw [off] at hright
    rw [SackBlock.covers, toNat_sub_of_sub _ k.left b.una, toNat_sub_of_sub k.right k.left b.una,
      toNat_seqOf_sub hright.2 (by omega)]
    have hlt := (k.left - b.una).isLt
    simp only at h1
    split at h1
    · rename_i hbefore
      rw [seqBefore_iff] at hbefore
      omega
    · rename_i hbefore
      rw [seqBefore_iff] at hbefore
      rw [off] at h1
      omega

theorem sack_carved (hb : Books b) (hm : 0 < b.mss) (hf : b.endOff < b.unaOff + 2 ^ 31) (blocks : List SackBlock)
    (now : Instant) (ecr : Option Seq) : Carved blocks b (b.sack blocks now ecr).1 := by
  obtain ⟨c, cache, hturns, heq⟩ := sack_turns b blocks now ecr
  obtain ⟨hb0, -⟩ : Books { b with sackCache := [] } ∧ _ := hb.congr rfl rfl rfl rfl rfl rfl
  have hks : ∀ range ∈ blocks.filterMap b.clip, ∀ o, range.1 ≤ o → o < range.2 → ∃ k ∈ blocks,
    k.covers (b.seqOf o) := by
    intro range hrange o h1 h2
    obtain ⟨k, hk, hclip⟩ := List.mem_filterMap.mp hrange
    exact ⟨k, hk, clip_covers hb hf hclip h1 h2⟩
  obtain ⟨h, -, -⟩ := turns_carved hturns hb0 hm hks
  obtain ⟨hbc, hend⟩ : Books { c with sackCache := cache } ∧ _ := h.books.congr rfl rfl rfl rfl rfl rfl
  rw [heq]
  exact ⟨hbc, h.mss, h.una, hend ▸ h.flight, h.seqOf, h.units, h.within⟩

def cutFront (x : ℕ) : List Seg → List Seg
  | [] => []
  | s :: l => if s.stop ≤ x then cutFront x l else if s.start < x then { s with start := x } :: l else s :: l

theorem ackLoop_segs {now : ℕ} {ecr : Option Seq} : (ackLoop x now ecr l b d).1.segs = cutFront x l := by
  induction l generalizing b d with
  | nil => rfl
  | cons s l ih =>
    rw [ackLoop, cutFront]
    by_cases hstop : s.stop ≤ x
    · rw [if_pos hstop, if_pos hstop]
      cases hk : s.sacked
      · exact ih
      · exact ih
    · rw [if_neg hstop, if_neg hstop]
      by_cases hstart : s.start < x
      · rw [if_pos hstart, if_pos hstart]
        cases hk : s.sacked <;> cases hl : s.lost <;> rfl
      · rw [if_neg hstart, if_neg hstart]

theorem mem_cutFront (h : t ∈ cutFront x l) : t ∈ l ∨ ∃ s ∈ l, s.start < x ∧ t = { s with start := x } := by
  induction l with
  | nil => cases h
  | cons s l ih =>
    rw [cutFront] at h
    split at h
    · rcases ih h with ht | ⟨u, hu, hux⟩
      · exact .inl (List.mem_cons_of_mem s ht)
      · exact .inr ⟨u, List.mem_cons_of_mem s hu, hux⟩
    · split at h
      · rename_i hlt
        rcases List.mem_cons.mp h with rfl | ht
        · exact .inr ⟨s, List.mem_cons_self, hlt, rfl⟩
        · exact .inl (List.mem_cons_of_mem s ht)
      · exact .inl h

theorem unitsOf_cutFront {m : ℕ} : unitsOf m (cutFront x l) ≤ unitsOf m l := by
  induction l with
  | nil => exact le_rfl
  | cons s l ih =>
    rw [cutFront, unitsOf_cons]
    split
    · omega
    · split
      · rename_i hlt
        have := Seg.units_mono (m := m) (s := s) (t := { s with start := x }) (by simp only [Seg.len]; omega)
        rw [unitsOf_cons]
        omega
      · rfl

theorem ack_carved (hb : Books b) (a : Seq) (now : Instant) (ecr : Option Seq) :
    Carved ks b (b.ack a now ecr).1 := by
  cases ha : seqAfter a b.una with
  | false =>
    rw [ack_of_not_after ha]
    exact .refl hb
  | true =>
    have hsegs : (b.ack a now ecr).1.segs = cutFront (b.off a) b.segs := by
      simp only [ack, ha]
      exact ackLoop_segs
    obtain ⟨c, hc, heq⟩ := ack_spec hb ha now ecr
    obtain ⟨_, _, _, _, _, _, _, hframe⟩ := hc.frame
    obtain ⟨hbooks, hflight⟩ := hc.books hb
    have hmss : c.mss = b.mss := by rw [hframe]
    rw [heq] at hsegs ⊢
    refine ⟨hbooks, hmss, Nat.le_add_right _ _, hflight, ?_, ?_, ?_⟩
    · intro o ho
      have hsum : a + BitVec.ofNat 32 (o - b.off a) = b.una + BitVec.ofNat 32 (o - b.unaOff) := by
        have hle : b.off a ≤ o := ho
        have hdiff : o - b.unaOff = (a - b.una).toNat + (o - b.off a) := by
          rw [off] at hle ⊢
          omega
        rw [hdiff, BitVec.ofNat_add, BitVec.ofNat_toNat, BitVec.setWidth_eq, ← BitVec.add_assoc,
          BitVec.add_comm b.una, BitVec.sub_add_cancel]
      rw [seqOf_eq ho, seqOf_eq ((Nat.le_add_right _ _).trans ho), hsum]
    · rw [hsegs]
      exact unitsOf_cutFront
    · intro t ht
      have hunat := (hbooks.tiles.mem_bounds ht).1
      rw [hsegs] at ht
      rcases mem_cutFront ht with ht | ⟨s, hs, hlt, rfl⟩
      · exact ⟨t, ht, le_rfl, le_rfl, fun _ => ⟨by omega, rfl⟩, .inl⟩
      · refine ⟨s, hs, hlt.le, le_rfl, fun _ => ⟨?_, rfl⟩, .inl⟩
        simp only
        omega

theorem heed_carved (hb : Books b) (hm : 0 < b.mss) (hf : b.endOff < b.unaOff + 2 ^ 31) (f : AckOp) :
    Carved f.blocks b (b.heed f) := by
  cases f with
  | ack a now ecr => exact ack_carved hb a now ecr
  | sack blocks now ecr => exact sack_carved hb hm hf blocks now ecr

theorem heeds_carved (hb : Books b) (hm : 0 < b.mss) (hf : b.endOff < b.unaOff + 2 ^ 31) (fs : List AckOp) :
    Carved (fs.flatMap AckOp.blocks) b (fs.foldl heed b) := by
  induction fs generalizing b with
  | nil => exact .refl hb
  | cons f fs ih =>
    have h1 := heed_carved hb hm hf f
    have h2 := h1.flight
    have h3 := h1.una
    have h4 := ih h1.books (h1.mss ▸ hm) (by omega)
    exact (h1.mono (by simp)).trans (h4.mono (by simp))

/-- Of a record no longer than one MSS, what is not acknowledged is still one record. -/
theorem Carved.whole (h : Carved ks b c) (hb : Books b) (hs : s ∈ b.segs) (hlen : s.len ≤ b.mss)
    (hleft : c.unaOff < s.stop) : ∃ t ∈ c.segs, t.start = max s.start c.unaOff ∧ t.stop = s.stop := by
  obtain ⟨h1, h2, h3⟩ := hb.tiles.mem_bounds hs
  have hend := h.flight
  -- the record that holds the last byte, which is part of one that held it before
  obtain ⟨t, ht, h4, h5⟩ := h.books.tiles.cover (j := s.stop - 1) (by omega) (by omega)
  obtain ⟨u, hu, g1, g2, g3, -⟩ := h.within t ht
  obtain rfl : u = s := hb.tiles.unique (j := s.stop - 1) hu hs (by omega) (by omega) (by omega) (by omega)
  exact ⟨t, ht, g3 hlen⟩

/-- Whatever a receiver sends between two transmissions, no piece of it makes the records take more
units of one MSS, or cuts one no longer than that, and what is SACKed in the end was before or is
reported by a block. So there are never more records than to begin with and one for each MSS in flight. -/
theorem feedback_never_shreds (b : Scoreboard) (hb : Books b) (hm : 0 < b.mss)
    (hf : b.endOff < b.unaOff + 2 ^ 31) (fs : List AckOp) :
    (∀ pre f post, fs = pre ++ f :: post →
      unitsOf b.mss ((pre.foldl heed b).heed f).segs ≤ unitsOf b.mss (pre.foldl heed b).segs ∧
      ∀ s ∈ (pre.foldl heed b).segs, s.len ≤ b.mss → ((pre.foldl heed b).heed f).unaOff < s.stop →
        ∃ t ∈ ((pre.foldl heed b).heed f).segs,
          t.start = max s.start ((pre.foldl heed b).heed f).unaOff ∧ t.stop = s.stop) ∧
    (∀ t ∈ (fs.foldl heed b).segs, t.sacked = true → ∀ o, t.start ≤ o → o < t.stop →
      (∃ s ∈ b.segs, s.sacked = true ∧ s.start ≤ o ∧ o < s.stop) ∨
      ∃ f ∈ fs, ∃ k ∈ f.blocks, k.covers (b.seqOf o)) ∧
    (fs.foldl heed b).segs.length ≤ b.segs.length + (b.endOff - b.unaOff) / b.mss := by
  refine ⟨?_, ?_, ?_⟩
  · rintro pre f post -
    have h1 := heeds_carved hb hm hf pre
    have h2 := h1.flight
    have h3 := h1.una
    have h4 := heed_carved h1.books (h1.mss ▸ hm) (by omega) f
    refine ⟨?_, fun s hs hlen hleft => h4.whole h1.books hs (h1.mss ▸ hlen) hleft⟩
    have := h4.units
    rwa [h1.mss] at this
  · intro t ht hk o ho1 ho2
    obtain ⟨s, hs, h1, h2, -, h3⟩ := (heeds_carved hb hm hf fs).within t ht
    rcases h3 hk with hsk | hcov
    · exact .inl ⟨s, hs, hsk, by omega, by omega⟩
    · obtain ⟨k, hk, hko⟩ := hcov o ho1 ho2
      obtain ⟨f, hf, hkf⟩ := List.mem_flatMap.mp hk
      exact .inr ⟨f, hf, k, hkf, hko⟩
  · have h := heeds_carved hb hm hf fs
    calc (fs.foldl heed b).segs.length
        ≤ unitsOf b.mss (fs.foldl heed b).segs := length_le_unitsOf hm h.books.tiles
      _ ≤ unitsOf b.mss b.segs := h.units
      _ ≤ b.segs.length + (b.endOff - b.unaOff) / b.mss := unitsOf_le hm hb.tiles

/-- Blocks that end inside segments, and an ACK that does. -/
def crafted : List AckOp :=
  [.sack [⟨500, 2500⟩, ⟨3100, 3200⟩] 10 none, .ack 700 11 none, .sack [⟨701, 1900⟩, ⟨2001, 2999⟩] 12 none]

/-- Two records of 3000 and 500 bytes at an MSS of 1000 end up as four. -/
theorem feedback_never_shreds_crafted :
    ∃ s, run Ledger.step (Ledger.init 0 0 true) [.setMss 1000, .send 3000 false 1 0,
      .send 500 false 2 0] = some s ∧
      s.board.segs.length = 2 ∧ (crafted.foldl heed s.board).segs.length = 4 ∧
      (crafted.foldl heed s.board).segs.length ≤ s.board.segs.length + (s.board.endOff - s.board.unaOff)
        / s.board.mss := by
  refine exists_of_any (P := fun s => 0 < s.board.mss ∧ s.board.endOff < s.board.unaOff + 2 ^ 31 ∧
    s.board.segs.length = 2 ∧ (crafted.foldl heed s.board).segs.length = 4) (by decide +kernel) ?_
  rintro s hs ⟨hm, hf, h2, h4⟩
  exact ⟨h2, h4, (feedback_never_shreds s.board (Ledger.inv_run hs).books hm hf crafted).2.2⟩

/-- With more than half the sequence space in flight, a block that starts below SND.UNA and ends five
bytes above SACKs the whole segment: the right edge reads as lying past the end. -/
theorem half_space_sacked_whole :
    ∃ s, run Ledger.step (Ledger.init 0 0 true) [.setMss 1000, .send (2 ^ 31 + 2000) false 1 0] = some s ∧
      ∃ t ∈ (s.board.heed (.sack [⟨2 ^ 31 + 100, 5⟩] 2 none)).segs, t.sacked = true ∧ t.start ≤ 7 ∧ 7 < t.stop ∧
        (∀ g ∈ s.board.segs, g.sacked = false) ∧ ¬ SackBlock.covers ⟨2 ^ 31 + 100, 5⟩ (s.board.seqOf 7) :=
  exists_of_any (by decide +kernel) fun _ _ h => h

end Scoreboard

end PktKit.Vtcp
