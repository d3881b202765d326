import PktKit.Vtcp.Scoreboard.Ledger
import PktKit.Vtcp.Scoreboard.Sacking

/-! # The cache of SACK blocks

A SACK skips what the previous one's blocks covered, on the ground that it is
SACKed already. A block that ends inside a segment may have left that segment
alone; a later block that covers all of it is then skipped as well. As long as
each segment left alone is one the new blocks would leave alone too, skipping
changes nothing.
-/

namespace PktKit.Vtcp
open Foundations.Runs Foundations.Tilings Relation

namespace Scoreboard

variable {b c : Scoreboard} {d : Delivery} {s t : Seg} {pre post suf l : List Seg} {R p q : ℕ × ℕ}
  {now x lo hi pr : ℕ} {ecr : Option Seq}

/-- The segment shares a byte with the range. -/
def Meets (p : ℕ × ℕ) (s : Seg) : Prop := s.start < p.2 ∧ p.1 < s.stop

instance (p : ℕ × ℕ) (s : Seg) : Decidable (Meets p s) := inferInstanceAs (Decidable (_ ∧ _))

/-- The block `R` covers part of the segment, and no whole MSS of it that could be cut out: it is left
alone. -/
def Spared (m : ℕ) (R : ℕ × ℕ) (s : Seg) : Prop :=
  (s.start < R.1 ∨ R.2 < s.stop) ∧
    (s.len ≤ m ∨ s.fin = true ∨
      (if min s.stop R.2 < s.stop then s.start + (min s.stop R.2 - s.start) / m * m else min s.stop R.2) ≤
        if s.start < max s.start R.1 then s.start + (max s.start R.1 - s.start + m - 1)
          / m * m else max s.start R.1)

instance (m : ℕ) (R : ℕ × ℕ) (s : Seg) : Decidable (Spared m R s) := inferInstanceAs (Decidable (_ ∧ _))

def visit (R : ℕ × ℕ) (now : ℕ) (ecr : Option Seq) (acc : Scoreboard × Delivery) (s : Seg) :
    Scoreboard × Delivery :=
  if s.sacked then acc
  else
    match acc.1.sackPart s R.1 R.2 with
    | none => acc
    | some (lo, hi) => acc.1.sackSome ((acc.1.idx s.start).getD 0) lo hi now ecr acc.2

theorem sackPart_of_spared (h : Spared b.mss R s) : b.sackPart s R.1 R.2 = none := by
  obtain ⟨hcut, hwhy⟩ := h
  have hcut' : s.start < max s.start R.1 ∨ min s.stop R.2 < s.stop := by omega
  simp only [sackPart]
  rw [if_pos hcut']
  by_cases hlong : s.len ≤ b.mss ∨ s.fin = true
  · rw [if_pos hlong]
  · rw [if_neg hlong, if_pos]
    left
    tauto

/-- What is cut off past the part SACKed, a second look leaves alone. -/
theorem spared_rest (hm : 0 < b.mss) (hs : s.start < s.stop) (hpart : b.sackPart s R.1 R.2 = some (lo, hi))
    (hlt : hi < s.stop) : Spared b.mss R { s with start := hi } := by
  have hal := sackPart_aligned hm hs hpart
  obtain ⟨h1, h2, -⟩ := hal.bounds
  obtain ⟨hr, hshort⟩ := hal.rest hlt
  have hin := hal.inside
  have hdiv : (R.2 - hi) / b.mss = 0 := Nat.div_eq_of_lt (by omega)
  have hmin : min s.stop R.2 = R.2 := by omega
  have hmax : max hi R.1 = hi := by omega
  refine ⟨.inr hr, .inr (.inr ?_)⟩
  simp only [hmin, hmax, if_pos hr, hdiv, lt_irrefl, if_false]
  omega

theorem visit_of_segs (hb : Books b) (h : b.segs = pre ++ s :: post) :
    visit R now ecr (b, d) s = if s.sacked then (b, d) else
      match b.sackPart s R.1 R.2 with
      | none => (b, d)
      | some (lo, hi) => b.sackSome pre.length lo hi now ecr d := by
  have hs := (hb.tiles.mem_bounds (show s ∈ b.segs by simp [h])).2.1
  rw [visit, idx_of_segs hb h le_rfl hs]
  rfl

theorem markSackedLoop_past {n : ℕ} (h : b.segs = pre ++ t :: post)
    (ht : t.sacked = true ∨ b.sackPart t R.1 R.2 = none)
    (hpr : t.start < pr) :
    markSackedLoop R.1 R.2 pr now ecr (n + 1) pre.length b d =
      markSackedLoop R.1 R.2 pr now ecr n (pre.length + 1) b d := by
  rw [markSackedLoop, getElem?_of_segs h]
  simp only
  rw [if_neg (by omega)]
  rcases ht with hk | hnone
  · rw [if_pos hk]
  · rw [hnone]
    split <;> rfl

theorem markSackedLoop_stop {n : ℕ} (h : b.segs = pre ++ t :: post) (hpr : pr ≤ t.start) :
    markSackedLoop R.1 R.2 pr now ecr n pre.length b d = (b, d) := by
  cases n with
  | zero => rfl
  | succ n =>
    rw [markSackedLoop, getElem?_of_segs h]
    simp only
    rw [if_pos hpr]

theorem markSackedLoop_some {n : ℕ} (hb : Books b) (hm : 0 < b.mss) (h : b.segs = pre ++ s :: post)
    (hk : s.sacked = false) (hpart : b.sackPart s R.1 R.2 = some (lo, hi)) (hpr : s.start < pr)
    (hn : pr - s.start ≤ n + 1) (now : ℕ) (ecr : Option Seq) (d : Delivery) :
    ∃ pre' k, (b.sackSome pre.length lo hi now ecr d).1.segs = pre' ++ post ∧ pr - s.stop ≤ k ∧
      markSackedLoop R.1 R.2 pr now ecr (n + 1) pre.length b d =
        markSackedLoop R.1 R.2 pr now ecr k pre'.length (b.sackSome pre.length lo hi now ecr d).1
          (b.sackSome pre.length lo hi now ecr d).2 := by
  have hs := (hb.bounds (getElem?_of_segs h)).2.1
  obtain ⟨h1, h2, h3⟩ := sackPart_bounds hs hpart
  obtain ⟨⟨-, ⟨-, -, -, hmss⟩, hsegs⟩, hidx⟩ := sackSome_cut hb hm h hk hpart now ecr d
  have hloop : markSackedLoop R.1 R.2 pr now ecr (n + 1) pre.length b d =
      markSackedLoop R.1 R.2 pr now ecr n ((b.splitBefore pre.length lo).2 + 1)
        (b.sackSome pre.length lo hi now ecr d).1 (b.sackSome pre.length lo hi now ecr d).2 := by
    rw [markSackedLoop, getElem?_of_segs h]
    simp only
    rw [if_neg (by omega), hk, hpart]
    rfl
  generalize b.sackSome pre.length lo hi now ecr d = acc at hmss hsegs hloop ⊢
  -- the segments up to the part SACKed, and what is left after it
  obtain ⟨done, hdone, hlen⟩ : ∃ done : List Seg,
      acc.1.segs = done ++ ((if hi < s.stop then [{ s with start := hi }] else []) ++ post) ∧
        done.length = (b.splitBefore pre.length lo).2 + 1 := by
    refine ⟨pre ++ (if s.start < lo then [{ s with stop := lo }] else []) ++
      [{ s with start := lo, stop := hi, sacked := true, lost := false }], ?_, ?_⟩
    · rw [hsegs, pieces]
      simp only [List.append_assoc, List.cons_append, List.nil_append]
    · rw [hidx]
      split <;> simp
  rw [hloop, ← hlen]
  by_cases hback : hi < s.stop
  · rw [if_pos hback] at hdone
    have hwhole : acc.1.segs = (done ++ [{ s with start := hi }]) ++ post := by rw [hdone, List.append_assoc]
    by_cases hstop : pr ≤ hi
    · rw [markSackedLoop_stop hdone hstop]
      exact ⟨done ++ [{ s with start := hi }], 0, hwhole, by omega, rfl⟩
    · obtain ⟨k, rfl⟩ : ∃ k, n = k + 1 := ⟨n - 1, by omega⟩
      have hspared : Spared acc.1.mss R { s with start := hi } := hmss ▸ spared_rest hm hs hpart hback
      rw [markSackedLoop_past hdone (.inr (sackPart_of_spared hspared)) (by simp only; omega)]
      refine ⟨done ++ [{ s with start := hi }], k, hwhole, by omega, ?_⟩
      rw [List.length_append, List.length_singleton]
  · rw [if_neg hback] at hdone
    exact ⟨done, n, hdone, by omega, rfl⟩

theorem markSackedLoop_eq (n : ℕ) (hb : Books b) (hm : 0 < b.mss) (h : b.segs = pre ++ suf)
    (hn : ∀ s ∈ suf.head?, pr - s.start ≤ n) :
    markSackedLoop R.1 R.2 pr now ecr n pre.length b d =
      (suf.takeWhile fun s => decide (s.start < pr)).foldl (visit R now ecr) (b, d) := by
  induction suf generalizing pre b d n with
  | nil =>
    cases n with
    | zero => rfl
    | succ n =>
      have hnone : b.segs[pre.length]? = none := by simp [h]
      rw [markSackedLoop, hnone]
      rfl
  | cons s rest ih =>
    have htl := hb.tiles
    rw [h] at htl
    obtain ⟨_, -, -, hlt, hrest⟩ := tiles_append.mp htl
    have hnext : ∀ k, pr - s.stop ≤ k → ∀ t ∈ rest.head?, pr - t.start ≤ k := by
      intro k hk t ht
      cases rest with
      | nil => cases ht
      | cons u rest =>
        obtain rfl := Option.some.inj ht
        rw [hrest.1]
        exact hk
    have hn := hn s rfl
    by_cases hpr : s.start < pr
    · obtain ⟨n, rfl⟩ : ∃ k, n = k + 1 := ⟨n - 1, by omega⟩
      have hskip : s.sacked = true ∨ b.sackPart s R.1 R.2 = none →
          markSackedLoop R.1 R.2 pr now ecr (n + 1) pre.length b d =
            (rest.takeWhile fun s => decide (s.start < pr)).foldl (visit R now ecr) (b, d) := by
        intro hleave
        rw [markSackedLoop_past h hleave hpr]
        have h' : b.segs = (pre ++ [s]) ++ rest := by simpa using h
        have := ih (d := d) n hb hm h' (hnext n (by omega))
        rwa [List.length_append, List.length_singleton] at this
      rw [List.takeWhile_cons, if_pos (decide_eq_true hpr), List.foldl_cons, visit_of_segs hb h]
      cases hk : s.sacked with
      | true => exact hskip (.inl hk)
      | false =>
        cases hpart : b.sackPart s R.1 R.2 with
        | none => exact hskip (.inr hpart)
        | some part =>
          obtain ⟨lo, hi⟩ := part
          obtain ⟨⟨hbooks, ⟨-, -, -, hmss⟩, -⟩, -⟩ := sackSome_cut hb hm h hk hpart now ecr d
          obtain ⟨pre', k, hsegs, hfuel, hloop⟩ := markSackedLoop_some hb hm h hk hpart hpr hn now
            ecr d
          rw [hloop]
          exact ih k hbooks (hmss ▸ hm) hsegs (hnext k hfuel)
    · rw [markSackedLoop_stop h (by omega), List.takeWhile_cons, if_neg (by simpa using hpr)]
      rfl

/-- The segments that share a byte with the range. -/
def touched (b : Scoreboard) (p : ℕ × ℕ) : List Seg := b.segs.filter fun s => decide (Meets p s)

theorem mem_touched : s ∈ b.touched p ↔ s ∈ b.segs ∧ Meets p s := by simp [touched]

theorem markSacked_eq (hb : Books b) (hm : 0 < b.mss) (hp : b.unaOff ≤ p.1) :
    b.markSacked R p now ecr d = (b.touched p).foldl (visit R now ecr) (b, d) := by
  rw [markSacked]
  cases hidx : b.idx p.1 with
  | none =>
    have hnone : b.touched p = [] := by
      refine List.filter_eq_nil_iff.mpr fun s hs hmeets => ?_
      have hend := (hb.tiles.mem_bounds hs).2.2
      have hmeets := (of_decide_eq_true hmeets).2
      obtain ⟨t, ht, h1, h2⟩ := hb.tiles.cover hp (by omega)
      obtain ⟨pre, post, hsegs⟩ := List.append_of_mem ht
      rw [idx_of_segs hb hsegs h1 h2] at hidx
      cases hidx
    rw [hnone]
    rfl
  | some i =>
    obtain ⟨s, hs, h1, h2⟩ := idx_spec hidx
    obtain ⟨pre, post, hsegs, rfl⟩ := segs_of_getElem? hs
    have htl := hb.tiles
    rw [hsegs] at htl
    obtain ⟨a, hpre, hsuf⟩ := tiles_append.mp htl
    have htouched : b.touched p = (s :: post).takeWhile fun s => decide (s.start < p.2) := by
      have hbefore : pre.filter (fun s => decide (Meets p s)) = [] := by
        refine List.filter_eq_nil_iff.mpr fun t ht hmeets => ?_
        have h3 := (hpre.mem_bounds ht).2.2
        have h4 := (of_decide_eq_true hmeets).2
        have h5 := hsuf.1
        omega
      rw [touched, hsegs, List.filter_append, hbefore, hsuf.takeWhile_start, List.nil_append]
      refine List.filter_congr fun t ht => ?_
      have hstop : p.1 < t.stop := by
        rcases List.mem_cons.mp ht with rfl | ht
        · exact h2
        · have := hsuf.2.2.mem_bounds ht
          omega
      simp [Meets, hstop]
    rw [htouched]
    simp only [hs, Option.map_some, Option.getD_some]
    refine markSackedLoop_eq _ hb hm hsegs fun t ht => ?_
    obtain rfl := Option.some.inj ht
    exact le_rfl

def Idle (m : ℕ) (R : ℕ × ℕ) (s : Seg) : Prop := s.sacked = true ∨ Spared m R s

theorem visit_of_idle {acc : Scoreboard × Delivery} (h : Idle acc.1.mss R s) : visit R now ecr acc s = acc := by
  rw [visit]
  rcases h with hk | hspared
  · rw [if_pos hk]
  · rw [sackPart_of_spared hspared]
    split <;> rfl

theorem foldl_visit_of_idle {acc : Scoreboard × Delivery} (h : ∀ s ∈ l, Idle acc.1.mss R s) :
    l.foldl (visit R now ecr) acc = acc := by
  induction l with
  | nil => rfl
  | cons s l ih =>
    rw [List.foldl_cons, visit_of_idle (h s List.mem_cons_self)]
    exact ih fun t ht => h t (List.mem_cons_of_mem s ht)

theorem visit_spec {acc : Scoreboard × Delivery} (hb : Books acc.1) (hm : 0 < acc.1.mss) (hs : s ∈ acc.1.segs)
    (R : ℕ × ℕ) (now : ℕ) (ecr : Option Seq) :
    visit R now ecr acc s = acc ∨ (s.sacked = false ∧ ¬ Spared acc.1.mss R s ∧ ∃ pre post lo hi,
      acc.1.segs = pre ++ s :: post ∧ Aligned acc.1 s R.1 R.2 lo hi ∧
      Cut acc.1 pre s post lo hi (visit R now ecr acc s).1) := by
  obtain ⟨pre, post, hsegs⟩ := List.append_of_mem hs
  have heq : visit R now ecr acc s = _ := visit_of_segs (d := acc.2) hb hsegs
  cases hk : s.sacked with
  | true => exact .inl (visit_of_idle (.inl hk))
  | false =>
    rw [hk] at heq
    cases hpart : acc.1.sackPart s R.1 R.2 with
    | none =>
      rw [hpart] at heq
      exact .inl heq
    | some part =>
      obtain ⟨lo, hi⟩ := part
      rw [hpart] at heq
      have hns : ¬ Spared acc.1.mss R s := fun hsp => by
        rw [sackPart_of_spared hsp] at hpart
        cases hpart
      have heq' : visit R now ecr acc s = acc.1.sackSome pre.length lo hi now ecr acc.2 := heq
      refine .inr ⟨rfl, hns, pre, post, lo, hi, hsegs,
        sackPart_aligned hm (hb.tiles.mem_bounds hs).2.1 hpart, ?_⟩
      rw [heq']
      exact (sackSome_cut hb hm hsegs hk hpart now ecr acc.2).1

/-- Of the segments not SACKed, one that shares a byte with a cached range is left alone by each of the
ranges `Rs` it shares one with. -/
def Settled (cache Rs : List (ℕ × ℕ)) (b : Scoreboard) : Prop :=
  ∀ s ∈ b.segs, s.sacked = false → (∃ c ∈ cache, Meets c s) → ∀ R ∈ Rs, Meets R s → Spared b.mss R s

instance (cache Rs : List (ℕ × ℕ)) (b : Scoreboard) : Decidable (Settled cache Rs b) :=
  inferInstanceAs (Decidable (∀ s ∈ b.segs, _ → _))

/-- What a SACK keeps while it goes over its ranges. -/
structure Steady (cache Rs : List (ℕ × ℕ)) (una : ℕ) (b : Scoreboard) : Prop where
  books : Books b
  mss : 0 < b.mss
  una : b.unaOff = una
  settled : Settled cache Rs b

variable {cache Rs : List (ℕ × ℕ)} {una a m e : ℕ}

theorem Steady.idle (h : Steady cache Rs una b) (hs : s ∈ b.segs) (hc : q ∈ cache) (hq : Meets q s) (hR : R ∈ Rs)
    (hmeets : Meets R s) : Idle b.mss R s := by
  cases hk : s.sacked with
  | true => exact .inl hk
  | false => exact .inr (h.settled s hs hk ⟨q, hc, hq⟩ R hR hmeets)

/-- A visit to a segment the range meets keeps it, and what other ranges touch. -/
theorem Steady.of_visit {acc : Scoreboard × Delivery} (h : Steady cache Rs una acc.1)
    (hs : s ∈ acc.1.segs) (hR : R ∈ Rs)
    (hmeets : Meets R s) (now : ℕ) (ecr : Option Seq) :
    Steady cache Rs una (visit R now ecr acc s).1 ∧ (visit R now ecr acc s).1.mss = acc.1.mss ∧
      (∀ t ∈ acc.1.segs, t ≠ s → t ∈ (visit R now ecr acc s).1.segs) ∧
      ∀ q, ¬ Meets q s ∨ Idle acc.1.mss R s → (visit R now ecr acc s).1.touched q = acc.1.touched q := by
  rcases visit_spec h.books h.mss hs R now ecr with
    hsame | ⟨hk, hns, pre, post, lo, hi, hsegs, hal, hbooks, ⟨-, hoff, -, hmss⟩, hnew⟩
  · rw [hsame]
    exact ⟨h, rfl, fun t ht _ => ht, fun _ _ => rfl⟩
  · refine ⟨⟨hbooks, hmss ▸ h.mss, hoff.trans h.una, ?_⟩, hmss, ?_, ?_⟩
    · intro t ht htk hcache R' hR' hmeets'
      rw [hmss]
      rw [hnew, List.mem_append, List.mem_append] at ht
      rcases ht with ht | ht | ht
      · exact h.settled t (by simp [hsegs, ht]) htk hcache R' hR' hmeets'
      · -- a piece shares no byte with a cached range, since the segment did not
        obtain ⟨c, hc, hcm⟩ := hcache
        obtain ⟨h1, h2, -⟩ := mem_pieces hal ht
        have hcs : Meets c s := ⟨lt_of_le_of_lt h1 hcm.1, lt_of_lt_of_le hcm.2 h2⟩
        exact absurd (h.settled s hs hk ⟨c, hc, hcs⟩ R hR hmeets) hns
      · exact h.settled t (by simp [hsegs, ht]) htk hcache R' hR' hmeets'
    · intro t ht hne
      rw [hsegs] at ht
      rw [hnew]
      simp only [List.mem_append, List.mem_cons] at ht ⊢
      tauto
    · rintro q (hq | hidle)
      · have hpieces : (pieces s lo hi).filter (fun s => decide (Meets q s)) = [] := by
          refine List.filter_eq_nil_iff.mpr fun t ht hqt => hq ?_
          obtain ⟨h1, h2, -⟩ := mem_pieces hal ht
          have hqt := of_decide_eq_true hqt
          exact ⟨lt_of_le_of_lt h1 hqt.1, lt_of_lt_of_le hqt.2 h2⟩
        rw [touched, touched, hnew, hsegs, List.filter_append, List.filter_append, List.filter_append, hpieces,
          List.filter_cons_of_neg (by simpa using hq)]
        rfl
      · rcases hidle with hk' | hsp
        · rw [hk] at hk'
          cases hk'
        · exact absurd hsp hns

theorem Steady.foldl_visit (acc : Scoreboard × Delivery) (h : Steady cache Rs una acc.1) (hR : R ∈ Rs)
    (hord : l.Pairwise fun x y => x.stop ≤ y.start) (hl : ∀ s ∈ l, s ∈ acc.1.segs ∧ Meets R s) (now : ℕ)
    (ecr : Option Seq) :
    Steady cache Rs una (l.foldl (visit R now ecr) acc).1 ∧ (l.foldl (visit R now ecr) acc).1.mss = acc.1.mss ∧
      ∀ q, (∀ s ∈ l, ¬ Meets q s ∨ Idle acc.1.mss R s) →
        (l.foldl (visit R now ecr) acc).1.touched q = acc.1.touched q := by
  induction l generalizing acc with
  | nil => exact ⟨h, rfl, fun _ _ => rfl⟩
  | cons s l ih =>
    obtain ⟨hfirst, hord⟩ := List.pairwise_cons.mp hord
    obtain ⟨hs, hmeets⟩ := hl s List.mem_cons_self
    obtain ⟨h1, h2, h3, h4⟩ := h.of_visit hs hR hmeets now ecr
    obtain ⟨g1, g2, g3⟩ := ih _ h1 hord (by
      intro t ht
      obtain ⟨htm, htR⟩ := hl t (List.mem_cons_of_mem s ht)
      refine ⟨h3 t htm ?_, htR⟩
      rintro rfl
      have := hfirst t ht
      have := (h.books.tiles.mem_bounds htm).2.1
      omega)
    refine ⟨g1, g2.trans h2, fun q hq => ?_⟩
    rw [List.foldl_cons, g3 q, h4 q (hq s List.mem_cons_self)]
    rw [h2]
    exact fun t ht => hq t (List.mem_cons_of_mem s ht)

theorem Steady.touches (h : Steady cache Rs una b) (hin : R.1 ≤ p.1 ∧ p.2 ≤ R.2) :
    (b.touched p).Pairwise (fun x y => x.stop ≤ y.start) ∧ ∀ s ∈ b.touched p, s ∈ b.segs ∧ Meets R s := by
  refine ⟨h.books.tiles.pairwise.filter _, fun s hs => ?_⟩
  obtain ⟨hm, h1, h2⟩ := mem_touched.mp hs
  exact ⟨hm, lt_of_lt_of_le h1 hin.2, lt_of_le_of_lt hin.1 h2⟩

theorem Steady.of_markSacked (h : Steady cache Rs una b) (hR : R ∈ Rs) (hp : una ≤ p.1)
    (hin : R.1 ≤ p.1 ∧ p.2 ≤ R.2) :
    Steady cache Rs una (b.markSacked R p now ecr d).1 := by
  obtain ⟨hord, hl⟩ := h.touches hin
  rw [markSacked_eq h.books h.mss (h.una ▸ hp)]
  exact (Steady.foldl_visit (b, d) h hR hord hl now ecr).1

/-- A part that touches only what is SACKed or left alone can be skipped. -/
theorem markSacked_of_idle (h : Steady cache Rs una b) (hp : una ≤ p.1)
    (hidle : ∀ s ∈ b.segs, Meets p s → Idle b.mss R s) :
    b.markSacked R p now ecr d = (b, d) := by
  rw [markSacked_eq h.books h.mss (h.una ▸ hp)]
  refine foldl_visit_of_idle fun s hs => ?_
  obtain ⟨h1, h2⟩ := mem_touched.mp hs
  exact hidle s h1 h2

/-- A part may be taken in two, where what lies across the cut is SACKed or left alone. -/
theorem markSacked_split (h : Steady cache Rs una b) (hR : R ∈ Rs) (ha : una ≤ a) (ham : a ≤ m) (hme : m ≤ e)
    (hin : R.1 ≤ a ∧ e ≤ R.2) (hidle : ∀ s ∈ b.segs, s.start < m → m < s.stop → Idle b.mss R s) :
    b.markSacked R (a, e) now ecr d = (b.markSacked R (a, m) now ecr d).1.markSacked R (m, e) now ecr
      (b.markSacked R (a, m) now ecr d).2 := by
  obtain ⟨ls, ms, ns, hsegs, hls, hms, hns⟩ := h.books.tiles.cut_at m
  have hpos : ∀ s ∈ b.segs, s.start < s.stop := fun s hs => (h.books.tiles.mem_bounds hs).2.1
  have hmid : ∀ s ∈ ms, Idle b.mss R s := fun s hs =>
    hidle s (by simp [hsegs, hs]) (hms s hs).1 (hms s hs).2
  have hmsAll : ∀ q : ℕ × ℕ, q.1 ≤ m → m ≤ q.2 → ms.filter (fun s => decide (Meets q s)) = ms := by
    intro q h1 h2
    refine List.filter_eq_self.mpr fun s hs => decide_eq_true ?_
    have := hms s hs
    exact ⟨by omega, by omega⟩
  have hleft : ls.filter (fun s => decide (Meets (a, e) s)) = ls.filter (fun s => decide (Meets (a, m) s)) := by
    refine List.filter_congr fun s hs => decide_eq_decide.mpr ?_
    have h1 := hls s hs
    have h2 := hpos s (by simp [hsegs, hs])
    simp only [Meets]
    omega
  have hright : ns.filter (fun s => decide (Meets (a, e) s)) = ns.filter (fun s => decide (Meets (m, e) s)) := by
    refine List.filter_congr fun s hs => decide_eq_decide.mpr ?_
    have h1 := hns s hs
    have h2 := hpos s (by simp [hsegs, hs])
    simp only [Meets]
    omega
  have hno1 : ns.filter (fun s => decide (Meets (a, m) s)) = [] := by
    refine List.filter_eq_nil_iff.mpr fun s hs hq => ?_
    have h1 := hns s hs
    have h2 := (of_decide_eq_true hq).1
    simp only at h2
    omega
  have hno2 : ls.filter (fun s => decide (Meets (m, e) s)) = [] := by
    refine List.filter_eq_nil_iff.mpr fun s hs hq => ?_
    have h1 := hls s hs
    have h2 := (of_decide_eq_true hq).2
    simp only at h2
    omega
  have htwhole : b.touched (a, e) = ls.filter (fun s => decide (Meets (a, m) s)) ++
      (ms ++ ns.filter (fun s => decide (Meets (m, e) s))) := by
    rw [touched, hsegs, List.filter_append, List.filter_append, hleft, hright, hmsAll (a, e) ham hme]
  have htleft : b.touched (a, m) = ls.filter (fun s => decide (Meets (a, m) s)) ++ ms := by
    rw [touched, hsegs, List.filter_append, List.filter_append, hno1, hmsAll (a, m) ham le_rfl, List.append_nil]
  have htright : b.touched (m, e) = ms ++ ns.filter (fun s => decide (Meets (m, e) s)) := by
    rw [touched, hsegs, List.filter_append, List.filter_append, hno2, hmsAll (m, e) le_rfl hme, List.nil_append]
  obtain ⟨hord, hl⟩ := h.touches (R := R) (p := (a, m)) ⟨hin.1, hme.trans hin.2⟩
  obtain ⟨hsteady, hmss, hkeep⟩ := Steady.foldl_visit (b, d) h hR hord hl now ecr
  have hfirst : b.markSacked R (a, m) now ecr d = (b.touched (a, m)).foldl (visit R now ecr) (b, d) :=
    markSacked_eq h.books h.mss (h.una ▸ ha)
  rw [← hfirst] at hsteady hmss hkeep
  have htouch : (b.markSacked R (a, m) now ecr d).1.touched (m, e) = b.touched (m, e) := by
    refine hkeep (m, e) fun s hs => ?_
    rw [htleft, List.mem_append] at hs
    rcases hs with hs | hs
    · left
      have := hls s (List.mem_of_mem_filter hs)
      simp only [Meets]
      omega
    · exact .inr (hmid s hs)
  -- what lies across the cut is visited twice, to no effect
  have hskip : ms.foldl (visit R now ecr) (b.markSacked R (a, m) now ecr d) = b.markSacked R (a, m) now ecr d :=
    foldl_visit_of_idle fun s hs => hmss ▸ hmid s hs
  calc b.markSacked R (a, e) now ecr d
      = (b.touched (a, e)).foldl (visit R now ecr) (b, d) := markSacked_eq h.books h.mss (h.una ▸ ha)
    _ = (ns.filter fun s => decide (Meets (m, e) s)).foldl (visit R now ecr)
          (b.markSacked R (a, m) now ecr d) := by
        rw [htwhole, ← List.append_assoc, ← htleft, List.foldl_append, ← hfirst]
    _ = (b.touched (m, e)).foldl (visit R now ecr) (b.markSacked R (a, m) now ecr d) := by
        rw [htright, List.foldl_append, hskip]
    _ = _ := by
        rw [markSacked_eq hsteady.books hsteady.mss (by rw [hsteady.una]; exact ha.trans ham), htouch]

/-- What a cached range covers of a part can be skipped. -/
theorem markSacked_cutOut (h : Steady cache Rs una b) (hR : R ∈ Rs) (hq : q ∈ cache) (hqlt : q.1 < q.2)
    (hp : una ≤ p.1)
    (hin : R.1 ≤ p.1 ∧ p.2 ≤ R.2) (now : ℕ) (ecr : Option Seq) (d : Delivery) :
    b.markSacked R p now ecr d = (cutOut p q).foldl (fun acc x => acc.1.markSacked R x now ecr acc.2) (b, d) := by
  obtain ⟨a, e⟩ := p
  simp only at hp hin
  rw [cutOut]
  by_cases hapart : q.2 ≤ a ∨ e ≤ q.1
  · rw [if_pos hapart]
    rfl
  · rw [if_neg hapart]
    -- a segment that reaches into both the cached range and this part is SACKed or left alone
    have hidle : ∀ {b' : Scoreboard}, Steady cache Rs una b' → ∀ s ∈ b'.segs, Meets q s → s.start <
      e → a < s.stop →
        Idle b'.mss R s := fun hb' s hs hqs h1 h2 =>
      hb'.idle hs hq hqs hR ⟨lt_of_lt_of_le h1 hin.2, lt_of_le_of_lt hin.1 h2⟩
    have hinside : ∀ {b' : Scoreboard} {d' : Delivery} {x : ℕ × ℕ}, Steady cache Rs una b' → una ≤ x.1 → a ≤ x.1 →
        x.2 ≤ e → q.1 ≤ x.1 → x.2 ≤ q.2 → b'.markSacked R x now ecr d' = (b', d') := by
      intro b' d' x hb' h0 h1 h2 h3 h4
      refine markSacked_of_idle hb' h0 fun s hs hx => ?_
      have h5 := hx.1
      have h6 := hx.2
      exact hidle hb' s hs ⟨by omega, by omega⟩ (by omega) (by omega)
    -- the part past the start of the cached range
    have htail : ∀ {b' : Scoreboard} {d' : Delivery} {x : ℕ}, Steady cache Rs una b' → una ≤ x → a ≤ x → q.1 ≤ x →
        x < q.2 → b'.markSacked R (x, e) now ecr d' =
          (if q.2 < e then [(q.2, e)] else []).foldl (fun acc y =>
            acc.1.markSacked R y now ecr acc.2) (b', d') := by
      intro b' d' x hb' h0 h1 h2 h3
      by_cases hend : q.2 < e
      · rw [if_pos hend, markSacked_split (m := q.2) hb' hR h0 (by omega) hend.le ⟨by omega, hin.2⟩,
          hinside (x := (x, q.2)) hb' h0 h1 hend.le h2 le_rfl]
        · rfl
        · intro s hs h4 h5
          exact hidle hb' s hs ⟨h4, by omega⟩ (by omega) (by omega)
      · rw [if_neg hend, hinside (x := (x, e)) hb' h0 h1 le_rfl h2 (by simp only; omega)]
        rfl
    by_cases hstart : a < q.1
    · rw [if_pos hstart, markSacked_split (m := q.1) h hR hp hstart.le (by omega) hin, List.foldl_append]
      · refine htail (h.of_markSacked hR hp ⟨hin.1, by simp only; omega⟩) (by omega) hstart.le le_rfl hqlt
      · intro s hs h4 h5
        exact hidle h s hs ⟨by omega, h5⟩ (by omega) (by omega)
    · rw [if_neg hstart]
      exact htail h hp le_rfl (by omega) (by omega)

theorem within_of_mem_cutOut {y : ℕ × ℕ} (h : y ∈ cutOut p q) : p.1 ≤ y.1 ∧ y.2 ≤ p.2 := by
  rw [cutOut] at h
  split at h
  · obtain rfl := List.mem_singleton.mp h
    exact ⟨le_rfl, le_rfl⟩
  · rename_i hmeet
    rcases List.mem_append.mp h with h | h
    · split at h
      · obtain rfl := List.mem_singleton.mp h
        exact ⟨le_rfl, by simp only; omega⟩
      · cases h
    · split at h
      · obtain rfl := List.mem_singleton.mp h
        exact ⟨by simp only; omega, le_rfl⟩
      · cases h

theorem foldl_newParts {acc : Scoreboard × Delivery} (h : Steady cache Rs una acc.1) (hR : R ∈ Rs)
    (hRu : una ≤ R.1)
    (hlt : ∀ q ∈ cache, q.1 < q.2) :
    (newParts R cache).foldl (fun acc x => acc.1.markSacked R x now ecr acc.2) acc =
      acc.1.markSacked R R now ecr acc.2 := by
  have hone : ∀ {q : ℕ × ℕ} (parts : List (ℕ × ℕ)) {acc : Scoreboard × Delivery},
    Steady cache Rs una acc.1 → q ∈ cache →
      (∀ x ∈ parts, R.1 ≤ x.1 ∧ x.2 ≤ R.2) →
      (parts.flatMap (cutOut · q)).foldl (fun acc x => acc.1.markSacked R x now ecr acc.2) acc =
        parts.foldl (fun acc x => acc.1.markSacked R x now ecr acc.2) acc := by
    intro q parts
    induction parts with
    | nil => exact fun _ _ _ => rfl
    | cons x parts ih =>
      intro acc hacc hq hin
      have hx := hin x List.mem_cons_self
      have hstep := markSacked_cutOut hacc hR hq (hlt q hq) (hRu.trans hx.1) hx now ecr acc.2
      rw [List.flatMap_cons, List.foldl_append, ← hstep, List.foldl_cons]
      exact ih (hacc.of_markSacked hR (hRu.trans hx.1) hx) hq fun y hy => hin y (List.mem_cons_of_mem x hy)
  have hall : ∀ (qs : List (ℕ × ℕ)) {parts : List (ℕ × ℕ)}, qs ⊆ cache → (∀ x ∈ parts, R.1 ≤ x.1 ∧ x.2 ≤ R.2) →
      (qs.foldl (fun parts q => parts.flatMap (cutOut · q)) parts).foldl
        (fun acc x => acc.1.markSacked R x now ecr acc.2) acc =
        parts.foldl (fun acc x => acc.1.markSacked R x now ecr acc.2) acc := by
    intro qs
    induction qs with
    | nil => exact fun _ _ => rfl
    | cons q qs ih =>
      intro parts hsub hin
      rw [List.foldl_cons, ih (fun y hy => hsub (List.mem_cons_of_mem q hy)) ?_,
        hone parts h (hsub List.mem_cons_self) hin]
      intro x hx
      obtain ⟨y, hy, hxy⟩ := List.mem_flatMap.mp hx
      obtain ⟨h1, h2⟩ := within_of_mem_cutOut hxy
      exact ⟨(hin y hy).1.trans h1, h2.trans (hin y hy).2⟩
  rw [newParts, hall cache (List.Subset.refl cache) (by simp)]
  rfl

/-- A clipped block is a range above SND.UNA. -/
theorem clip_bounds {k : SackBlock} (h : b.clip k = some R) : b.unaOff ≤ R.1 ∧ R.1 < R.2 := by
  simp only [clip] at h
  split at h
  · cases h
  · rw [Option.ite_none_right_eq_some, Option.some.injEq] at h
    obtain ⟨hlt, rfl⟩ := h
    refine ⟨?_, hlt⟩
    simp only
    split
    · exact le_rfl
    · exact Nat.le_add_right _ _

/-- A SACK that finds nothing but what its blocks leave alone, or SACKed, in the cached ranges is the same
as one that goes over its blocks in full. -/
theorem sack_eq_full (hb : Books b) (hm : 0 < b.mss) (hlt : ∀ q ∈ b.sackCache, q.1 < q.2) {blocks : List SackBlock}
    (hset : Settled b.sackCache (blocks.filterMap b.clip) b) (now : Instant) (ecr : Option Seq) :
    b.sack blocks now ecr = { b with sackCache := [] }.sack blocks now ecr := by
  have hfold : ∀ (rs : List (ℕ × ℕ)) (acc : Scoreboard × Delivery),
      Steady b.sackCache (blocks.filterMap b.clip) b.unaOff acc.1 → rs ⊆ blocks.filterMap b.clip →
      (rs.flatMap fun range => (newParts range b.sackCache).map fun part => (range, part)).foldl
          (fun (acc : Scoreboard × Delivery) w => acc.1.markSacked w.1 w.2 (b.ns now) ecr acc.2) acc =
        (rs.flatMap fun range => (newParts range []).map fun part => (range, part)).foldl
          (fun (acc : Scoreboard × Delivery) w => acc.1.markSacked w.1 w.2 (b.ns now) ecr acc.2) acc := by
    intro rs
    induction rs with
    | nil => exact fun _ _ _ => rfl
    | cons R rs ih =>
      intro acc hacc hsub
      have hR := hsub List.mem_cons_self
      obtain ⟨k, -, hk⟩ := List.mem_filterMap.mp hR
      have hu := (clip_bounds hk).1
      simp only [List.flatMap_cons, List.foldl_append, List.foldl_map]
      rw [foldl_newParts hacc hR hu hlt]
      exact ih _ (hacc.of_markSacked hR hu ⟨le_rfl, le_rfl⟩) fun y hy => hsub (List.mem_cons_of_mem R hy)
  obtain ⟨hb0, -⟩ : Books { b with sackCache := [] } ∧ _ := hb.congr rfl rfl rfl rfl rfl rfl
  have hsorted : (blocks.filterMap b.clip).insertionSort pairLe ⊆ blocks.filterMap b.clip :=
    fun x hx => (List.mem_insertionSort _).mp hx
  have key := hfold ((blocks.filterMap b.clip).insertionSort pairLe) ({ b with sackCache := [] }, {})
    ⟨hb0, hm, rfl, hset⟩ hsorted
  simp only [sack]
  rw [key]
  rfl

/-! ## What leaves the cache alone -/

def Alone (b c : Scoreboard) : Prop := c.sackCache = b.sackCache ∧ c.mss = b.mss

section

variable (b : Scoreboard)

theorem Alone.trans {b c c' : Scoreboard} (h : Alone b c) (h' : Alone c c') : Alone b c' :=
  ⟨h'.1.trans h.1, h'.2.trans h.2⟩

theorem alone_split (i cut : ℕ) : Alone b (b.split i cut) := by
  rw [split]
  split <;> exact ⟨rfl, rfl⟩

theorem alone_mergeNext (i : ℕ) : Alone b (b.mergeNext i) := by
  rw [mergeNext]
  split <;> exact ⟨rfl, rfl⟩

theorem alone_unlose (s : Seg) : Alone b (b.unlose s) := by
  rw [unlose]
  split <;> exact ⟨rfl, rfl⟩

theorem alone_pushTx (r : TxRec) : Alone b (b.pushTx r) := by
  rw [pushTx]
  split <;> exact ⟨rfl, rfl⟩

theorem alone_onSend (seq : Seq) (len : ℕ) (fin : Bool) (now : Instant) (tsval : Seq) :
    Alone b (b.onSend seq len fin now tsval) := by
  simp only [onSend]
  generalize (if fin = true then 1 else len) = n
  split
  · exact ⟨rfl, rfl⟩
  · exact alone_pushTx _ _

theorem alone_splitBefore (i cut : ℕ) : Alone b (b.splitBefore i cut).1 := by
  rw [splitBefore]
  split
  · exact ⟨rfl, rfl⟩
  · split
    · exact alone_split b i cut
    · exact ⟨rfl, rfl⟩

theorem alone_splitAfter (i cut : ℕ) : Alone b (b.splitAfter i cut) := by
  rw [splitAfter]
  split
  · exact ⟨rfl, rfl⟩
  · split
    · exact alone_split b i cut
    · exact ⟨rfl, rfl⟩

theorem alone_mergeLoop (n i stop : ℕ) : Alone b (mergeLoop n b i stop) := by
  induction n generalizing b with
  | zero => exact ⟨rfl, rfl⟩
  | succ n ih =>
    rw [mergeLoop]
    split
    · exact ⟨rfl, rfl⟩
    · split
      · exact (alone_mergeNext b i).trans (ih _)
      · exact ⟨rfl, rfl⟩

theorem alone_resendAt (i : ℕ) (now : Instant) (tsval : Seq) : Alone b (b.resendAt i now tsval) := by
  rw [resendAt]
  split
  · exact ⟨rfl, rfl⟩
  · rename_i s _
    exact (alone_unlose b s).trans (Alone.trans (c := { (b.unlose s).replaceAt i _ with nextTx := _, rate := _ })
      ⟨rfl, rfl⟩ (alone_pushTx _ _))

theorem alone_onRetransmit (seq : Seq) (len : ℕ) (now : Instant) (tsval : Seq) :
    Alone b (b.onRetransmit seq len now tsval) := by
  simp only [onRetransmit]
  split
  · exact ⟨rfl, rfl⟩
  · exact (alone_splitBefore b _ _).trans ((alone_mergeLoop _ _ _ _).trans
      ((alone_splitAfter _ _ _).trans (alone_resendAt _ _ _ _)))

theorem alone_ackLoop (x now : ℕ) (ecr : Option Seq) (l : List Seg) (d : Delivery) :
    Alone b (ackLoop x now ecr l b d).1 := by
  induction l generalizing b d with
  | nil => exact ⟨rfl, rfl⟩
  | cons s l ih =>
    rw [ackLoop]
    split
    · cases hk : s.sacked with
      | true => exact (alone_unlose b s).trans (Alone.trans ⟨rfl, rfl⟩ (ih _ _))
      | false => exact (alone_unlose b s).trans (Alone.trans ⟨rfl, rfl⟩ (ih _ _))
    · split
      · cases s.sacked <;> cases s.lost <;> exact ⟨rfl, rfl⟩
      · exact ⟨rfl, rfl⟩

theorem alone_ack (a : Seq) (now : Instant) (ecr : Option Seq) : Alone b (b.ack a now ecr).1 := by
  rw [ack]
  split
  · exact ⟨rfl, rfl⟩
  · exact (alone_ackLoop b _ _ _ _ _).trans ⟨rfl, rfl⟩

theorem alone_markLost (i : ℕ) : Alone b (b.markLost i).1 := by
  rw [markLost]
  split
  · exact ⟨rfl, rfl⟩
  · split <;> exact ⟨rfl, rfl⟩

theorem alone_markLostWhere (f : ℕ → Seg → Bool) (is : List ℕ) : Alone b (b.markLostWhere f is).1 := by
  rw [markLostWhere]
  generalize hacc : (b, false) = acc
  obtain rfl : b = acc.1 := by rw [← hacc]
  clear hacc
  induction is generalizing acc with
  | nil => exact ⟨rfl, rfl⟩
  | cons i is ih =>
    rw [List.foldl_cons]
    refine Alone.trans ?_ (ih _)
    split
    · exact alone_markLost _ i
    · exact ⟨rfl, rfl⟩

theorem alone_scanLoop (now reo : ℕ) (k : Rack) (tq kept : List TxRec) (marked : Bool) (timeout : ℕ) :
    Alone b (scanLoop now reo k tq b kept marked timeout).board := by
  induction tq generalizing b kept marked timeout with
  | nil => exact ⟨rfl, rfl⟩
  | cons r rest ih =>
    simp only [scanLoop]
    split_ifs
    · exact ⟨rfl, rfl⟩
    · exact ih _ _ _ _
    · exact (alone_markLostWhere b _ _).trans (ih _ _ _ _)
    · exact ih _ _ _ _

theorem alone_detectLoss (now : Instant) (reo : Duration) : Alone b (b.detectLoss now reo).1 := by
  simp only [detectLoss]
  split
  · exact ⟨rfl, rfl⟩
  · exact (alone_scanLoop b _ _ _ _ _ _ _).trans ⟨rfl, rfl⟩

theorem alone_markRangeLoop (stop n i : ℕ) (marked : Bool) : Alone b (markRangeLoop stop n i b marked).1 := by
  induction n generalizing b i marked with
  | zero => exact ⟨rfl, rfl⟩
  | succ n ih =>
    rw [markRangeLoop]
    split
    · exact ⟨rfl, rfl⟩
    · split
      · exact ⟨rfl, rfl⟩
      · exact ((alone_splitAfter b i stop).trans (alone_markLost _ i)).trans (ih _ _ _)

theorem alone_markRangeLost (seq stop : Seq) : Alone b (b.markRangeLost seq stop).1 := by
  simp only [markRangeLost]
  split
  · exact ⟨rfl, rfl⟩
  · exact (alone_splitBefore b _ _).trans (alone_markRangeLoop _ _ _ _ _)

end

end Scoreboard

open Scoreboard

/-- A scoreboard and what its calls have returned so far. -/
structure Heard where
  board : Scoreboard
  returned : List Delivery
deriving DecidableEq, Repr

namespace Heard

def init (una : Seq) (now : Instant) (rack : Bool) : Heard := ⟨(Ledger.init una now rack).board, []⟩

/-- One call; with `full`, a SACK goes over all of its blocks, whatever is cached. -/
def step (full : Bool) (s : Heard) : ScoreOp → Option Heard
  | .ack a now ecr =>
    let r := s.board.ack a now ecr
    some ⟨r.1, s.returned ++ [r.2]⟩
  | .sack blocks now ecr =>
    let r := (if full then { s.board with sackCache := [] } else s.board).sack blocks now ecr
    some ⟨r.1, s.returned ++ [r.2]⟩
  | op => (Ledger.step ⟨s.board, 0⟩ op).map fun t => ⟨t.board, s.returned⟩

/-- A SACK arrives when each segment not SACKed that shares a byte with the previous ACK's blocks is one
that its own blocks do not meet, or leave alone. -/
def Harmless (s : Heard) : ScoreOp → Prop
  | .sack blocks _ _ => Settled s.board.sackCache (blocks.filterMap s.board.clip) s.board
  | _ => True

instance (s : Heard) (op : ScoreOp) : Decidable (Harmless s op) := by
  unfold Harmless
  split <;> infer_instance

structure Inv (s : Heard) : Prop where
  ledger : Ledger.Inv ⟨s.board, 0⟩
  mss : 0 < s.board.mss
  cache : ∀ q ∈ s.board.sackCache, q.1 < q.2

theorem inv_init (una : Seq) (now : Instant) (rack : Bool) : Inv (init una now rack) :=
  ⟨Ledger.inv_init una now rack, show 0 < MIN_MSS by decide, by simp [init, Ledger.init, Scoreboard.new, setRack]⟩

/-- A call that leaves cache and MSS alone. -/
theorem Inv.alone {s : Heard} {l : Ledger} (h : Inv s) (op : ScoreOp) (hl : Ledger.step ⟨s.board, 0⟩ op = some l)
    (ha : Alone s.board l.board) (ds : List Delivery) : Inv ⟨l.board, ds⟩ := by
  obtain ⟨hbooks, hroom⟩ := Ledger.inv_step h.ledger hl
  exact ⟨⟨hbooks, hroom⟩, ha.2 ▸ h.mss, ha.1 ▸ h.cache⟩

theorem inv_step {s t : Heard} {op : ScoreOp} (h : Inv s) (hs : step false s op = some t) : Inv t := by
  cases op with
  | send len fin now tsval =>
    obtain ⟨l, hl, rfl⟩ := Option.map_eq_some_iff.mp
      (show (Ledger.step ⟨s.board, 0⟩ (.send len fin now tsval)).map
        (fun l => Heard.mk l.board s.returned) = some t
        from hs)
    refine h.alone _ hl ?_ _
    obtain ⟨-, rfl⟩ := Ledger.step_send hl
    exact alone_onSend _ _ _ _ _ _
  | retransmit seq len now tsval =>
    exact Option.some.inj hs ▸ h.alone (.retransmit seq len now tsval) rfl (alone_onRetransmit _ _ _ _ _) _
  | ack a now ecr => exact Option.some.inj hs ▸ h.alone (.ack a now ecr) rfl (alone_ack _ _ _ _) _
  | detectLoss now reo => exact Option.some.inj hs ▸ h.alone (.detectLoss now reo) rfl (alone_detectLoss _ _ _) _
  | markLostOnRto now reo =>
    exact Option.some.inj hs ▸ h.alone (.markLostOnRto now reo) rfl (alone_markLostWhere _ _ _) _
  | markAllLost => exact Option.some.inj hs ▸ h.alone .markAllLost rfl (alone_markLostWhere _ _ _) _
  | markLongerLost max =>
    exact Option.some.inj hs ▸ h.alone (.markLongerLost max) rfl (alone_markLostWhere _ _ _) _
  | markHeadLost => exact Option.some.inj hs ▸ h.alone .markHeadLost rfl (alone_markLost _ _) _
  | markRangeLost seq stop =>
    exact Option.some.inj hs ▸ h.alone (.markRangeLost seq stop) rfl (alone_markRangeLost _ _ _) _
  | unmarkLost => exact Option.some.inj hs ▸ h.alone .unmarkLost rfl ⟨rfl, rfl⟩ _
  | beginAck => exact Option.some.inj hs ▸ h.alone .beginAck rfl ⟨rfl, rfl⟩ _
  | rttSample rtt now => exact Option.some.inj hs ▸ h.alone (.rttSample rtt now) rfl ⟨rfl, rfl⟩ _
  | rateSample => exact Option.some.inj hs ▸ h.alone .rateSample rfl ⟨rfl, rfl⟩ _
  | onCe len => exact Option.some.inj hs ▸ h.alone (.onCe len) rfl ⟨rfl, rfl⟩ _
  | markAppLimited => exact Option.some.inj hs ▸ h.alone .markAppLimited rfl ⟨rfl, rfl⟩ _
  | setTrackLosses on => exact Option.some.inj hs ▸ h.alone (.setTrackLosses on) rfl ⟨rfl, rfl⟩ _
  | takeLosses => exact Option.some.inj hs ▸ h.alone .takeLosses rfl ⟨rfl, rfl⟩ _
  | reoWnd dsack recovering exiting srtt =>
    exact Option.some.inj hs ▸ h.alone (.reoWnd dsack recovering exiting srtt) rfl ⟨rfl, rfl⟩ _
  | sack blocks now ecr =>
    obtain rfl := Option.some.inj hs
    obtain ⟨hbooks, hroom⟩ := Ledger.inv_step h.ledger (show Ledger.step ⟨s.board, 0⟩
      (.sack blocks now ecr) = _ from rfl)
    have hmss := (Edits.frame (sack_edits (m := false) blocks now ecr h.ledger.books)).2.2.1
    refine ⟨⟨hbooks, hroom⟩, hmss ▸ h.mss, ?_⟩
    intro q hq
    obtain ⟨k, -, hk⟩ := List.mem_filterMap.mp ((List.mem_insertionSort (r := pairLe)).mp hq)
    exact (clip_bounds hk).2
  | clearSacks =>
    obtain rfl := Option.some.inj hs
    obtain ⟨hbooks, hroom⟩ := Ledger.inv_clearSacks h.ledger
    exact ⟨⟨hbooks, hroom⟩, h.mss, by simp [clearSacks]⟩
  | renege now reo =>
    obtain rfl := Option.some.inj hs
    obtain ⟨hbooks, hroom⟩ := Ledger.inv_step h.ledger (show Ledger.step ⟨s.board, 0⟩
      (.renege now reo) = _ from rfl)
    obtain ⟨h1, h2⟩ : Alone s.board.clearSacks (s.board.clearSacks.markLostOnRto now reo) :=
      alone_markLostWhere _ _ _
    refine ⟨⟨hbooks, hroom⟩, h2 ▸ h.mss, ?_⟩
    intro q hq
    rw [h1] at hq
    cases hq
  | setMss mss =>
    obtain rfl := Option.some.inj hs
    obtain ⟨hbooks, hroom⟩ := Ledger.inv_step h.ledger (show Ledger.step ⟨s.board, 0⟩ (.setMss mss) = _ from rfl)
    exact ⟨⟨hbooks, hroom⟩, lt_of_lt_of_le Nat.one_pos (le_max_right _ _), h.cache⟩

theorem step_full {s : Heard} {op : ScoreOp} (h : Inv s) (hop : Harmless s op) :
    step true s op = step false s op := by
  cases op with
  | sack blocks now ecr =>
    have := sack_eq_full h.ledger.books h.mss h.cache hop now ecr
    simp only [step, if_true, Bool.false_eq_true, if_false, this]
  | _ => rfl

/-- As long as each SACK arrives when what the cached ranges hold is SACKed, or is left alone by its own
blocks too, the scoreboard that skips them is after every call the one that goes over all blocks in full, and
has returned the same. -/
theorem cache_changes_nothing (una : Seq) (start : Instant) (rack : Bool) (ops : List ScoreOp)
    (hops : ∀ js op ks t, ops = js ++ op :: ks → run (step false) (init una start rack) js = some t →
      Harmless t op) :
    ∀ js ks t, ops = js ++ ks → run (step false) (init una start rack) js = some t →
      run (step true) (init una start rack) js = some t := by
  intro js ks t hjs ht
  refine run_agree_of (fun _ _ _ => inv_step) (fun _ _ => step_full) ht (inv_init una start rack) ?_
  intro as op bs v hv
  exact hops as op (bs ++ ks) v (by rw [hjs, hv]; simp)

/-- A block grows into an aggregate, ends inside it, and is reported again. -/
def growing : List ScoreOp :=
  [.setMss 1000, .send 1000 false 1 0, .send 1000 false 2 0, .send 3000 false 3 0, .sack [⟨1000, 2000⟩] 10 none,
    .sack [⟨1000, 3500⟩] 11 none, .sack [⟨1000, 3500⟩] 12 none, .ack 2000 13 none, .sack [⟨2000, 3700⟩] 14 none]

theorem cache_changes_nothing_growing :
    ∃ s, run (step false) (init 0 0 true) growing = some s ∧ run (step true) (init 0 0 true) growing = some s ∧
      (s.board.segs.map fun g => (g.start, g.stop, g.sacked)) = [(2000, 3000, true), (3000, 5000, false)] := by
  refine exists_of_any (P := fun s => (s.board.segs.map fun g => (g.start, g.stop, g.sacked)) =
    [(2000, 3000, true), (3000, 5000, false)]) (by decide +kernel) fun s hs hsegs => ⟨?_, hsegs⟩
  exact cache_changes_nothing 0 0 true growing (along_sound (by decide +kernel)) growing [] s (by simp) hs

/-- The two halves of a segment are reported apart, and neither covers it whole; a report of all of it is
then skipped as cached, where in full it SACKs the segment. -/
theorem halves_then_whole_skipped :
    (run (step false) (init 0 0 true) [.setMss 100, .send 100 false 1 0, .sack [⟨0, 50⟩, ⟨50, 100⟩] 10 none,
        .sack [⟨0, 100⟩] 11 none]).map (fun s => (s.board.segs.map Seg.sacked, s.board.sacked,
          s.returned.map Delivery.delivered)) = some ([false], 0, [0, 0]) ∧
      (run (step true) (init 0 0 true) [.setMss 100, .send 100 false 1 0, .sack [⟨0, 50⟩, ⟨50, 100⟩] 10 none,
        .sack [⟨0, 100⟩] 11 none]).map (fun s => (s.board.segs.map Seg.sacked, s.board.sacked,
          s.returned.map Delivery.delivered)) = some ([true], 100, [0, 100]) := by
  decide +kernel

end Heard

end PktKit.Vtcp
