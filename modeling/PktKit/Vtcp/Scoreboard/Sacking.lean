import PktKit.Vtcp.Scoreboard.Acks

/-! # One turn of a SACK

A SACK block goes over the segments it touches one by one. Here is what one turn does to
the list of segments, and where it may cut.
-/

namespace PktKit.Vtcp
open Foundations.OrdSets Foundations.Tilings Relation

namespace Scoreboard

variable {b b' : Scoreboard} {d d' : Delivery} {s t : Seg} {pre post : List Seg} {i l r lo hi cut now : ℕ}
  {ecr : Option Seq}

def sackSome (b : Scoreboard) (i lo hi now : ℕ) (ecr : Option Seq) (d : Delivery) : Scoreboard × Delivery :=
  ((b.splitBefore i lo).1.splitAfter (b.splitBefore i lo).2 hi).sackAt (b.splitBefore i lo).2 now ecr d

def pieces (s : Seg) (lo hi : ℕ) : List Seg :=
  (if s.start < lo then [{ s with stop := lo }] else []) ++
    { s with start := lo, stop := hi, sacked := true, lost := false } ::
    (if hi < s.stop then [{ s with start := hi }] else [])

theorem getElem?_of_segs (h : b.segs = pre ++ s :: post) : b.segs[pre.length]? = some s := by
  rw [h]
  simp

theorem take_drop_of_segs (h : b.segs = pre ++ s :: post) :
    b.segs.take pre.length = pre ∧ b.segs.drop (pre.length + 1) = post := by
  rw [h]
  simp [List.drop_append]

theorem segs_of_getElem? (h : b.segs[i]? = some s) :
    ∃ pre post, b.segs = pre ++ s :: post ∧ pre.length = i := by
  obtain ⟨hi, -⟩ := List.getElem?_eq_some_iff.mp h
  refine ⟨b.segs.take i, b.segs.drop (i + 1), ?_, by simp; omega⟩
  have := segs_eq h
  simpa using this

/-- The segment that holds an offset is found. -/
theorem idx_of_segs (hb : Books b) (h : b.segs = pre ++ s :: post) {o : ℕ} (h1 : s.start ≤ o) (h2 : o < s.stop) :
    b.idx o = some pre.length := by
  have hfind : b.segs.findIdx (fun s => decide (o < s.stop)) = pre.length := by
    have htl := hb.tiles
    rw [h] at htl
    obtain ⟨a, hpre, hs, -⟩ := tiles_append.mp htl
    rw [h, List.findIdx_append, List.findIdx_cons, decide_eq_true h2, List.findIdx_eq_length.mpr]
    · simp
    · intro t ht
      have := (hpre.mem_bounds ht).2.2
      rw [decide_eq_false_iff_not]
      omega
  simp only [idx, hfind, getElem?_of_segs h, if_pos h1]

theorem split_segs (h : b.segs = pre ++ s :: post) (cut : ℕ) :
    (b.split pre.length cut).segs = pre ++ { s with stop := cut } :: { s with start := cut } :: post := by
  obtain ⟨h1, h2⟩ := take_drop_of_segs h
  simp only [split, getElem?_of_segs h, replaceAt, h1, h2]
  simp

theorem sackAt_segs (h : b.segs = pre ++ s :: post) :
    (b.sackAt pre.length now ecr d).1.segs = pre ++ { s with sacked := true, lost := false } :: post := by
  obtain ⟨h1, h2⟩ := take_drop_of_segs h
  obtain ⟨rate, rack, -, heq⟩ := sackAt_eq (getElem?_of_segs h) now ecr d
  rw [heq, h1, h2]
  simp

/-- What one turn does to the segments, and how many it leaves up to the part SACKed. -/
theorem sackSome_segs (h : b.segs = pre ++ s :: post) (h1 : s.start ≤ lo) (h3 : hi ≤ s.stop)
    (hfin : s.fin = true → hi = s.stop) (now : ℕ) (ecr : Option Seq) (d : Delivery) :
    (b.sackSome pre.length lo hi now ecr d).1.segs = pre ++ (pieces s lo hi ++ post) ∧
      (b.splitBefore pre.length lo).2 = pre.length + (if s.start < lo then 1 else 0) := by
  -- what starts at `lo`, after whatever is cut off before it
  have hbefore : ∃ front : List Seg, (b.splitBefore pre.length lo).1.segs =
    front ++ { s with start := lo } :: post ∧
      (b.splitBefore pre.length lo).2 = front.length ∧
      front = pre ++ (if s.start < lo then [{ s with stop := lo }] else []) := by
    simp only [splitBefore, getElem?_of_segs h]
    by_cases hlt : s.start < lo
    · simp only [if_pos hlt, split_segs h lo]
      exact ⟨pre ++ [{ s with stop := lo }], by simp, by simp, rfl⟩
    · obtain rfl : lo = s.start := by omega
      simp only [if_neg hlt]
      exact ⟨pre, h, rfl, by simp⟩
  obtain ⟨front, hsegs, hidx, hfront⟩ := hbefore
  have hafter : ((b.splitBefore pre.length lo).1.splitAfter front.length hi).segs =
      front ++ { s with start := lo, stop := hi } :: ((if hi < s.stop then [{ s with start := hi }] else [])
        ++ post) := by
    simp only [splitAfter, getElem?_of_segs hsegs]
    by_cases hlt : hi < s.stop
    · have hnofin : s.fin = false := by
        cases hf : s.fin with
        | false => rfl
        | true => exact absurd (hfin hf) (by omega)
      simp only [hnofin, decide_eq_true hlt, Bool.not_false, Bool.and_self, if_true,
        split_segs hsegs hi, if_pos hlt]
      simp
    · obtain rfl : hi = s.stop := by omega
      simp [hsegs]
  constructor
  · rw [sackSome, hidx, sackAt_segs hafter, hfront, pieces]
    simp
  · rw [hidx, hfront]
    split <;> simp

/-- Where a SACK of `[l, r)` may cut a segment: at a whole number of MSS from its start, and only if it is
longer than one and no FIN. -/
structure Aligned (b : Scoreboard) (s : Seg) (l r lo hi : ℕ) : Prop where
  bounds : s.start ≤ lo ∧ lo < hi ∧ hi ≤ s.stop
  inside : l ≤ lo ∧ hi ≤ r
  left : ∃ k, lo = s.start + k * b.mss
  right : hi = s.stop ∨ ∃ k, hi = s.start + k * b.mss
  cut : s.start < lo ∨ hi < s.stop → b.mss < s.len ∧ s.fin = false
  rest : hi < s.stop → r < s.stop ∧ r < hi + b.mss

theorem sackPart_aligned (hm : 0 < b.mss) (hs : s.start < s.stop) (h : b.sackPart s l r = some (lo, hi)) :
    Aligned b s l r lo hi := by
  have hbounds := sackPart_bounds hs h
  have hdown : ∀ x, x / b.mss * b.mss ≤ x := fun x => Nat.div_mul_le_self x b.mss
  have hup : ∀ x, x ≤ (x + b.mss - 1) / b.mss * b.mss := fun x => by
    have h1 := Nat.div_add_mod (x + b.mss - 1) b.mss
    have h2 := Nat.mod_lt (x + b.mss - 1) hm
    rw [Nat.mul_comm] at h1
    omega
  simp only [sackPart] at h
  by_cases hcut : s.start < max s.start l ∨ min s.stop r < s.stop
  · by_cases hlong : s.len ≤ b.mss ∨ s.fin = true
    · rw [if_pos hcut, if_pos hlong] at h
      cases h
    · have hd := hdown (min s.stop r - s.start)
      have hu := hup (max s.start l - s.start)
      rw [if_pos hcut, if_neg hlong, Option.ite_none_left_eq_some, Option.some.injEq, Prod.mk.injEq] at h
      obtain ⟨-, hlo, hhi⟩ := h
      rw [not_or, Bool.not_eq_true] at hlong
      refine ⟨hbounds, ⟨?_, ?_⟩, ?_, ?_, fun _ => ⟨by omega, hlong.2⟩, fun hlt => ?_⟩
      · split at hlo <;> omega
      · split at hhi <;> omega
      · split at hlo
        · exact ⟨_, hlo.symm⟩
        · exact ⟨0, by omega⟩
      · split at hhi
        · exact .inr ⟨_, hhi.symm⟩
        · left
          omega
      · have hmod := Nat.lt_div_mul_add hm (a := min s.stop r - s.start)
        split at hhi <;> omega
  · rw [if_neg hcut, Option.some.injEq, Prod.mk.injEq] at h
    obtain ⟨rfl, rfl⟩ := h
    exact ⟨hbounds, by omega, ⟨0, by omega⟩, .inl (by omega), fun hc => absurd hc (by
      omega), fun hc => absurd hc (by omega)⟩

/-- Of a segment no longer than one MSS a SACK leaves nothing but itself. -/
theorem mem_pieces (h : Aligned b s l r lo hi) (ht : t ∈ pieces s lo hi) :
    s.start ≤ t.start ∧ t.stop ≤ s.stop ∧ (s.len ≤ b.mss → t.start = s.start ∧ t.stop = s.stop) ∧
      (t.sacked = true → s.sacked = true ∨ (l ≤ t.start ∧ t.stop ≤ r)) := by
  obtain ⟨h1, h2, h3⟩ := h.bounds
  have hcut := h.cut
  simp only [pieces, List.mem_append, List.mem_cons] at ht
  rcases ht with ht | rfl | ht
  · by_cases hlt : s.start < lo
    · rw [if_pos hlt, List.mem_singleton] at ht
      subst ht
      exact ⟨le_rfl, by simp only; omega, fun hlen => absurd (hcut (.inl hlt)).1 (by omega), .inl⟩
    · rw [if_neg hlt] at ht
      cases ht
  · refine ⟨h1, h3, fun hlen => ?_, fun _ => .inr h.inside⟩
    have : ¬ (s.start < lo ∨ hi < s.stop) := fun hc => absurd (hcut hc).1 (by omega)
    simp only
    omega
  · by_cases hlt : hi < s.stop
    · rw [if_pos hlt, List.mem_singleton] at ht
      subst ht
      exact ⟨by simp only; omega, le_rfl, fun hlen => absurd (hcut (.inr hlt)).1 (by omega), .inl⟩
    · rw [if_neg hlt] at ht
      cases ht

theorem sackSome_edits {m : Bool} (hs : b.segs[i]? = some s) (hk : s.sacked = false)
    (h1 : s.start ≤ lo) (h2 : lo < hi)
    (h3 : hi ≤ s.stop) (now : ℕ) (ecr : Option Seq) (d : Delivery) :
    Edits m (b, d) (b.sackSome i lo hi now ecr d) := by
  obtain ⟨e1, hs1⟩ := splitBefore_edits (m := m) (d := d) hs h1 (by omega)
  obtain ⟨e2, stop, -, hs2⟩ := splitAfter_edits (m := m) (d := d) hi hs1 (by simpa using h2)
  exact (e1.trans e2).tail (.sack hs2 (by simpa using hk))

structure Cut (b : Scoreboard) (pre : List Seg) (s : Seg) (post : List Seg) (lo hi : ℕ)
    (c : Scoreboard) : Prop where
  books : Books c
  frame : c.una = b.una ∧ c.unaOff = b.unaOff ∧ c.endOff = b.endOff ∧ c.mss = b.mss
  segs : c.segs = pre ++ (pieces s lo hi ++ post)

theorem sackSome_cut (hb : Books b) (hm : 0 < b.mss) (h : b.segs = pre ++ s :: post) (hk : s.sacked = false)
    (hpart : b.sackPart s l r = some (lo, hi)) (now : ℕ) (ecr : Option Seq) (d : Delivery) :
    Cut b pre s post lo hi (b.sackSome pre.length lo hi now ecr d).1 ∧
      (b.splitBefore pre.length lo).2 = pre.length + (if s.start < lo then 1 else 0) := by
  have hal := sackPart_aligned hm (hb.bounds (getElem?_of_segs h)).2.1 hpart
  obtain ⟨h1, h2, h3⟩ := hal.bounds
  have hfin : s.fin = true → hi = s.stop := fun hf => by
    by_contra hne
    have := (hal.cut (.inr (by omega))).2
    rw [hf] at this
    cases this
  have e := sackSome_edits (m := false) (getElem?_of_segs h) hk h1 h2 h3 now ecr d
  obtain ⟨hbooks, hend⟩ := Edits.books e hb
  obtain ⟨huna, hoff, hmss, -⟩ := Edits.frame e
  obtain ⟨hsegs, hidx⟩ := sackSome_segs h h1 h3 hfin now ecr d
  exact ⟨⟨hbooks, ⟨huna, hoff, hend, hmss⟩, hsegs⟩, hidx⟩

inductive Turn (ranges : List (ℕ × ℕ)) : Scoreboard → Scoreboard → Prop
  | mk {b i s range lo hi now ecr d} : b.segs[i]? = some s → s.sacked = false → range ∈ ranges →
      b.sackPart s range.1 range.2 = some (lo, hi) → Turn ranges b (b.sackSome i lo hi now ecr d).1

theorem Turn.edits {ranges : List (ℕ × ℕ)} {m : Bool} (hb : Books b) (h : Turn ranges b b') :
    ∃ d d', Edits m (b, d) (b', d') := by
  cases h with
  | mk hs hk _ hpart =>
    obtain ⟨h1, h2, h3⟩ := sackPart_bounds (hb.bounds hs).2.1 hpart
    exact ⟨_, _, sackSome_edits hs hk h1 h2 h3 _ _ _⟩

theorem markSackedLoop_turns {ranges : List (ℕ × ℕ)} {block : ℕ × ℕ} {pr : ℕ} (hblock : block ∈ ranges) (n : ℕ) :
    ReflTransGen (Turn ranges) b (markSackedLoop block.1 block.2 pr now ecr n i b d).1 := by
  induction n generalizing i b d with
  | zero => exact .refl
  | succ n ih =>
    rw [markSackedLoop]
    cases hs : b.segs[i]? with
    | none => exact .refl
    | some s =>
      simp only
      by_cases hpr : pr ≤ s.start
      · rw [if_pos hpr]
      · rw [if_neg hpr]
        cases hk : s.sacked with
        | true => exact ih
        | false =>
          cases hpart : b.sackPart s block.1 block.2 with
          | none => exact ih
          | some p => exact .head (.mk hs hk hblock hpart) ih

theorem sack_turns (b : Scoreboard) (blocks : List SackBlock) (now : Instant) (ecr : Option Seq) :
    ∃ c cache, ReflTransGen (Turn (blocks.filterMap b.clip)) { b with sackCache := [] } c ∧
      (b.sack blocks now ecr).1 = { c with sackCache := cache } := by
  have hfold : ∀ (work : List ((ℕ × ℕ) × (ℕ × ℕ))) (acc : Scoreboard × Delivery),
      (∀ w ∈ work, w.1 ∈ blocks.filterMap b.clip) →
      ReflTransGen (Turn (blocks.filterMap b.clip)) acc.1 (work.foldl (fun (acc : Scoreboard × Delivery) w =>
        acc.1.markSacked w.1 w.2 (b.ns now) ecr acc.2) acc).1 := by
    intro work
    induction work with
    | nil => exact fun _ _ => .refl
    | cons w work ih =>
      intro acc hw
      refine .trans ?_ (ih _ fun x hx => hw x (List.mem_cons_of_mem w hx))
      simp only [markSacked]
      cases acc.1.idx w.2.1 with
      | none => exact .refl
      | some i => exact markSackedLoop_turns (hw w List.mem_cons_self) _
  refine ⟨_, _, hfold _ ({ b with sackCache := [] }, {}) ?_, rfl⟩
  intro w hw
  obtain ⟨range, hrange, hw⟩ := List.mem_flatMap.mp hw
  obtain ⟨part, -, rfl⟩ := List.mem_map.mp hw
  exact (List.mem_insertionSort _).mp hrange

end Scoreboard

end PktKit.Vtcp
