import PktKit.Vtcp.Scoreboard.Books

/-! # Operations as sequences of edits

Everything the scoreboard does to its segments between transmissions and
cumulative ACKs is a sequence of a few edits, each made where it is legitimate.
An invariant of the edits is an invariant of the operations.
-/

namespace PktKit.Vtcp
open Foundations.OrdSets Foundations.Tilings Relation

namespace Scoreboard

/-- One edit of the scoreboard, and what it adds to an ACK's report. The edits marked `true`
disturb the match of segments and transmission queue. -/
inductive Edit : Bool → Scoreboard × Delivery → Scoreboard × Delivery → Prop
  | split {m b d i s cut} : b.segs[i]? = some s → s.start < cut → cut < s.stop →
      Edit m (b, d) (b.split i cut, d)
  | lose {m b d i s} : b.segs[i]? = some s → s.lost = false → s.sacked = false →
      Edit m (b, d) ((b.markLost i).1, d)
  | sack {m b d i s now ecr} : b.segs[i]? = some s → s.sacked = false →
      Edit m (b, d) (b.sackAt i now ecr d)
  | quiet {m b d rack cache rate log} : Rate.delivered rate = b.rate.delivered →
      Edit m (b, d) ({ b with rack := rack, sackCache := cache, rate := rate, lostLog := log }, d)
  | join {b d i} : b.mergeable i = true → Edit true (b, d) (b.mergeNext i, d)
  | resend {b d i s now tsval} : b.segs[i]? = some s →
      Edit true (b, d) (b.resendAt i now tsval, d)
  | queue {b d tq} : Edit true (b, d) ({ b with tq := tq }, d)

abbrev Edits (m : Bool) := ReflTransGen (Edit m)

variable {m : Bool} {b b' : Scoreboard} {d d' : Delivery} {i : ℕ} {s : Seg}

theorem Books.congr (h : Books b) (hs : b'.segs = b.segs) (hu : b'.unaOff = b.unaOff)
    (hk : b'.sacked = b.sacked) (hc : b'.sackedSegs = b.sackedSegs) (hl : b'.lost = b.lost)
    (ht : b'.lostSet = b.lostSet) : Books b' ∧ b'.endOff = b.endOff := by
  have he : b'.endOff = b.endOff := by simp only [endOff, hs, hu]
  refine ⟨⟨?_, ?_, ?_, ?_, ?_, ?_, ?_⟩, he⟩
  · rw [hs, hu, he]; exact h.tiles
  · rw [hs]; exact h.excl
  · rw [hs, hk]; exact h.sacked_eq
  · rw [hs, hc]; exact h.sackedSegs_eq
  · rw [hs, hl]; exact h.lost_eq
  · rw [hs, ht]; exact h.mem_lostSet
  · rw [ht]; exact h.sorted

theorem Edit.books {x y : Scoreboard × Delivery} (h : Edit m x y) (hb : Books x.1) :
    Books y.1 ∧ y.1.endOff = x.1.endOff := by
  cases h with
  | split hs h1 h2 => exact books_split hb hs h1 h2
  | lose hs h1 h2 => exact books_markLost hb hs h1 h2
  | sack hs h1 => exact books_sackAt hb hs h1 _ _ _
  | quiet _ => exact hb.congr rfl rfl rfl rfl rfl rfl
  | join hm => exact books_mergeNext hb hm
  | resend hs => exact books_resendAt hb hs _ _
  | queue => exact hb.congr rfl rfl rfl rfl rfl rfl

theorem Edit.frame {x y : Scoreboard × Delivery} (h : Edit m x y) :
    y.1.una = x.1.una ∧ y.1.unaOff = x.1.unaOff ∧ y.1.mss = x.1.mss ∧ y.1.epoch = x.1.epoch ∧
      y.1.rackOn = x.1.rackOn := by
  cases h with
  | split hs _ _ => simp [Scoreboard.split, hs, replaceAt]
  | lose hs h1 h2 => simp [markLost_eq hs h1 h2, replaceAt]
  | sack hs _ =>
    obtain ⟨rate, rack, -, heq⟩ := sackAt_eq hs _ _ _
    rw [heq]
    simp
  | quiet _ => simp
  | join hm =>
    simp only [mergeNext]
    split <;> simp
  | resend hs =>
    obtain ⟨rate, snapshot, -, heq⟩ := resendAt_eq hs _ _
    rw [heq]
    simp
  | queue => simp

theorem Edits.books {x y : Scoreboard × Delivery} (h : Edits m x y) (hb : Books x.1) :
    Books y.1 ∧ y.1.endOff = x.1.endOff := by
  induction h with
  | refl => exact ⟨hb, rfl⟩
  | tail _ he ih =>
    obtain ⟨h1, h2⟩ := he.books ih.1
    exact ⟨h1, h2.trans ih.2⟩

theorem Edits.frame {x y : Scoreboard × Delivery} (h : Edits m x y) :
    y.1.una = x.1.una ∧ y.1.unaOff = x.1.unaOff ∧ y.1.mss = x.1.mss ∧ y.1.epoch = x.1.epoch ∧
      y.1.rackOn = x.1.rackOn := by
  induction h with
  | refl => simp
  | tail _ he ih =>
    obtain ⟨h1, h2, h3, h4, h5⟩ := he.frame
    obtain ⟨g1, g2, g3, g4, g5⟩ := ih
    exact ⟨h1.trans g1, h2.trans g2, h3.trans g3, h4.trans g4, h5.trans g5⟩

theorem idx_spec {off : ℕ} (h : b.idx off = some i) :
    ∃ s, b.segs[i]? = some s ∧ s.start ≤ off ∧ off < s.stop := by
  simp only [idx] at h
  split at h
  · cases h
  · rename_i s hs
    split at h
    · rename_i hle
      obtain rfl := Option.some.inj h
      obtain ⟨hi, rfl⟩ := List.getElem?_eq_some_iff.mp hs
      refine ⟨_, hs, hle, ?_⟩
      simpa using List.findIdx_getElem (w := hi)
    · cases h

theorem split_getElem? (hs : b.segs[i]? = some s) (cut : ℕ) :
    (b.split i cut).segs[i]? = some { s with stop := cut } ∧
      (b.split i cut).segs[i + 1]? = some { s with start := cut } := by
  obtain ⟨hi, rfl⟩ := List.getElem?_eq_some_iff.mp hs
  have hlen : (b.segs.take i).length = i := by simp; omega
  simp only [Scoreboard.split, hs, replaceAt]
  constructor
  · rw [List.append_assoc, List.getElem?_append_right (by omega)]
    simp [hlen]
  · rw [List.append_assoc, List.getElem?_append_right (by omega)]
    simp [hlen]

/-- A cut inside segment `i`, or at its start, leaves a segment that starts there. -/
theorem splitBefore_edits (hs : b.segs[i]? = some s) {cut : ℕ} (h1 : s.start ≤ cut) (h2 : cut < s.stop) :
    Edits m (b, d) ((b.splitBefore i cut).1, d) ∧
      (b.splitBefore i cut).1.segs[(b.splitBefore i cut).2]? = some { s with start := cut } := by
  simp only [splitBefore, hs]
  split
  · rename_i hlt
    exact ⟨.single (.split hs hlt h2), (split_getElem? hs cut).2⟩
  · obtain rfl : cut = s.start := by omega
    exact ⟨.refl, hs⟩

/-- A cut past the start of segment `i` leaves it ending there or before. -/
theorem splitAfter_edits (cut : ℕ) (hs : b.segs[i]? = some s) (h1 : s.start < cut) :
    Edits m (b, d) (b.splitAfter i cut, d) ∧
      ∃ stop ≤ s.stop, (b.splitAfter i cut).segs[i]? = some { s with stop := stop } := by
  simp only [splitAfter, hs]
  split
  · rename_i hlt
    simp only [Bool.and_eq_true, decide_eq_true_eq] at hlt
    exact ⟨.single (.split hs h1 hlt.1), cut, hlt.1.le, (split_getElem? hs cut).1⟩
  · exact ⟨.refl, s.stop, le_rfl, hs⟩

theorem markLost_edits : Edits m (b, d) ((b.markLost i).1, d) := by
  cases hs : b.segs[i]? with
  | none => simp only [markLost, hs]; exact .refl
  | some s =>
    cases hl : s.lost
    · cases hk : s.sacked
      · exact .single (.lose hs hl hk)
      · simp only [markLost, hs, hk, Bool.or_true, if_true]; exact .refl
    · simp only [markLost, hs, hl, Bool.true_or, if_true]; exact .refl

theorem markLostWhere_edits (p : ℕ → Seg → Bool) (is : List ℕ) :
    Edits m (b, d) ((b.markLostWhere p is).1, d) := by
  rw [markLostWhere]
  generalize hacc : (b, false) = acc
  obtain ⟨rfl⟩ : b = acc.1 := by rw [← hacc]
  clear hacc
  induction is generalizing acc with
  | nil => exact .refl
  | cons i is ih =>
    rw [List.foldl_cons]
    refine .trans ?_ (ih _)
    split
    · exact markLost_edits
    · exact .refl

theorem mergeLoop_edits (n stop : ℕ) (hs : b.segs[i]? = some s) :
    Edits true (b, d) (mergeLoop n b i stop, d) ∧
      ∃ s', (mergeLoop n b i stop).segs[i]? = some s' ∧ s'.start = s.start := by
  induction n generalizing b s with
  | zero => exact ⟨.refl, s, hs, rfl⟩
  | succ n ih =>
    rw [mergeLoop, hs]
    simp only
    split
    · rename_i hc
      have hm : b.mergeable i = true := (Bool.and_eq_true_iff.mp hc).2
      have hnext : ∃ s', (b.mergeNext i).segs[i]? = some s' ∧ s'.start = s.start := by
        obtain ⟨hi, -⟩ := List.getElem?_eq_some_iff.mp hs
        have hlen : (b.segs.take i).length = i := by simp; omega
        simp only [mergeable] at hm
        split at hm
        · rename_i a c ha hc
          obtain rfl := Option.some.inj (hs.symm.trans ha)
          refine ⟨{ s with stop := c.stop, retrans := s.retrans || c.retrans }, ?_, rfl⟩
          simp only [mergeNext, ha, hc]
          rw [List.getElem?_append_right (by omega), hlen]
          simp
        · cases hm
      obtain ⟨s', hs', hst⟩ := hnext
      obtain ⟨h1, s'', h2, h3⟩ := ih hs'
      exact ⟨.head (.join hm) h1, s'', h2, h3.trans hst⟩
    · exact ⟨.refl, s, hs, rfl⟩

theorem onRetransmit_edits (seq : Seq) (len : ℕ) (now : Instant) (tsval : Seq) :
    Edits true (b, d) (b.onRetransmit seq len now tsval, d) := by
  simp only [onRetransmit]
  split
  · exact .refl
  · rename_i i hi
    obtain ⟨s, hs, h1, h2⟩ := idx_spec hi
    obtain ⟨e1, hs1⟩ := splitBefore_edits (m := true) (d := d) hs h1 h2
    obtain ⟨e2, s2, hs2, hst⟩ := mergeLoop_edits (d := d) (b.splitBefore i (b.off seq)).1.segs.length
      (b.off seq + max len 1) hs1
    obtain ⟨e3, stop, -, hs3⟩ := splitAfter_edits (m := true) (d := d) (b.off seq + max len 1) hs2
      (by rw [hst]; simp only; omega)
    exact e1.trans (e2.trans (e3.tail (.resend hs3)))

theorem sackPart_bounds {l r lo hi : ℕ} (hs : s.start < s.stop)
    (h : b.sackPart s l r = some (lo, hi)) : s.start ≤ lo ∧ lo < hi ∧ hi ≤ s.stop := by
  have hdiv : ∀ x, x / b.mss * b.mss ≤ x := fun x => Nat.div_mul_le_self x b.mss
  simp only [sackPart] at h
  split_ifs at h with h1 h2 h3 h4 h5 h6 h7 <;>
    simp only [Option.some.injEq, Prod.mk.injEq] at h <;> obtain ⟨rfl, rfl⟩ := h
  all_goals
    have := hdiv (min s.stop r - s.start)
    omega

theorem markSackedLoop_edits {l r pr now : ℕ} {ecr : Option Seq} (n : ℕ) (hb : Books b) :
    Edits m (b, d) (markSackedLoop l r pr now ecr n i b d) := by
  induction n generalizing i b d with
  | zero => exact .refl
  | succ n ih =>
    rw [markSackedLoop]
    split
    · exact .refl
    · rename_i s hs
      split
      · exact .refl
      · split
        · exact ih hb
        · rename_i hk
          split
          · exact ih hb
          · rename_i lo hi hpart
            obtain ⟨h1, h2, h3⟩ := sackPart_bounds (hb.bounds hs).2.1 hpart
            obtain ⟨e1, hs1⟩ := splitBefore_edits (m := m) (d := d) hs h1 (by omega)
            obtain ⟨e2, stop, -, hs2⟩ := splitAfter_edits (m := m) (d := d) hi hs1 (by simpa using h2)
            have e3 : Edits m (b, d) (((b.splitBefore i lo).1.splitAfter (b.splitBefore i lo).2 hi).sackAt
                (b.splitBefore i lo).2 now ecr d) :=
              (e1.trans e2).tail (.sack hs2 (by simpa using hk))
            exact e3.trans (ih (Edits.books e3 hb).1)

theorem markSacked_edits (block part : ℕ × ℕ) (now : ℕ) (ecr : Option Seq) (hb : Books b) :
    Edits m (b, d) (b.markSacked block part now ecr d) := by
  simp only [markSacked]
  split
  · exact .refl
  · exact markSackedLoop_edits _ hb

theorem sack_edits (blocks : List SackBlock) (now : Instant) (ecr : Option Seq) (hb : Books b) :
    Edits m (b, {}) (b.sack blocks now ecr) := by
  simp only [sack]
  have hfold : ∀ (work : List ((ℕ × ℕ) × (ℕ × ℕ))) (acc : Scoreboard × Delivery), Books acc.1 →
      Edits m acc (work.foldl (fun (acc : Scoreboard × Delivery) w =>
        acc.1.markSacked w.1 w.2 (b.ns now) ecr acc.2) acc) := by
    intro work
    induction work with
    | nil => exact fun _ _ => .refl
    | cons w work ih =>
      intro acc hacc
      have e := markSacked_edits (m := m) (d := acc.2) w.1 w.2 (b.ns now) ecr hacc
      exact e.trans (ih _ (Edits.books e hacc).1)
  have e0 : Edit m (b, {}) ({ b with sackCache := [] }, {}) := .quiet rfl
  refine .head e0 (.tail (hfold _ _ (e0.books hb).1) (.quiet rfl))

theorem scanLoop_edits (now reo : ℕ) (k : Rack) (tq kept : List TxRec) (marked : Bool) (timeout : ℕ) :
    Edits m (b, d) ((scanLoop now reo k tq b kept marked timeout).board, d) := by
  induction tq generalizing b kept marked timeout with
  | nil => exact .refl
  | cons r rest ih =>
    simp only [scanLoop]
    split_ifs
    · exact .refl
    · exact ih _ _ _
    · exact (markLostWhere_edits _ _).trans (ih _ _ _)
    · exact ih _ _ _

theorem detectLoss_edits (now : Instant) (reo : Duration) :
    Edits true (b, d) ((b.detectLoss now reo).1, d) := by
  simp only [detectLoss]
  split
  · exact .refl
  · exact (scanLoop_edits _ _ _ _ _ _ _).tail .queue

theorem markRangeLoop_edits (stop n : ℕ) (marked : Bool) :
    Edits m (b, d) ((markRangeLoop stop n i b marked).1, d) := by
  induction n generalizing i b marked with
  | zero => exact .refl
  | succ n ih =>
    rw [markRangeLoop]
    split
    · exact .refl
    · rename_i s hs
      split
      · exact .refl
      · rename_i hlt
        exact ((splitAfter_edits stop hs (by omega)).1.trans markLost_edits).trans (ih _)

theorem markRangeLost_edits (seq stop : Seq) : Edits m (b, d) ((b.markRangeLost seq stop).1, d) := by
  simp only [markRangeLost]
  split
  · exact .refl
  · rename_i i hi
    obtain ⟨s, hs, h1, h2⟩ := idx_spec hi
    exact (splitBefore_edits hs h1 h2).1.trans (markRangeLoop_edits _ _ _)

end Scoreboard

end PktKit.Vtcp
