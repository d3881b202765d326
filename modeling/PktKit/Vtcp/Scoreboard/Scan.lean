import PktKit.Vtcp.Scoreboard.Coverage
import PktKit.Vtcp.Scoreboard.Ledger

/-! # Scans of RACK's queue

A scan takes a record off the queue once nothing is in flight under it, and what
is found not lost after all is queued again. Taking SACKs back puts segments in
flight and queues nothing: that is the one call after which a segment may be in
flight and forgotten.
-/

namespace PktKit.Vtcp
open Foundations.Runs Foundations.Tilings Scoreboard

namespace Scoreboard

variable {b : Scoreboard} {l : List Seg} {s t : Seg} {i j : ℕ}

theorem markLost_getElem? (i j : ℕ) :
    (b.markLost i).1.segs[j]? = b.segs[j]?.map fun s =>
      if j = i ∧ s.sacked = false then { s with lost := true } else s := by
  cases hs : b.segs[i]? with
  | none =>
    simp only [markLost, hs]
    cases ht : b.segs[j]? with
    | none => rfl
    | some t =>
      have hne : j ≠ i := by rintro rfl; rw [hs] at ht; cases ht
      simp [hne]
  | some s =>
    by_cases hsame : (s.lost || s.sacked) = true
    · simp only [markLost, hs, hsame, if_true]
      cases ht : b.segs[j]? with
      | none => rfl
      | some t =>
        by_cases hji : j = i
        · subst hji
          obtain rfl := Option.some.inj (hs.symm.trans ht)
          cases hk : s.sacked
          · have hl : s.lost = true := by simpa [hk] using hsame
            rw [Option.map_some, if_pos ⟨rfl, hk⟩, ← hl]
          · simp [hk]
        · simp [hji]
    · simp only [Bool.or_eq_true, not_or, Bool.not_eq_true] at hsame
      obtain ⟨hi, -⟩ := List.getElem?_eq_some_iff.mp hs
      rw [markLost_eq hs hsame.1 hsame.2]
      have hset : b.segs.take i ++ [{ s with lost := true }] ++ b.segs.drop (i + 1) =
          b.segs.set i { s with lost := true } := by
        rw [List.set_eq_take_append_cons_drop, if_pos hi, List.append_assoc]
        rfl
      simp only [replaceAt, hset, List.getElem?_set]
      by_cases hji : i = j
      · subst hji
        rw [if_pos rfl, if_pos hi, hs, Option.map_some, if_pos ⟨rfl, hsame.2⟩]
      · simp [hji, Ne.symm hji]

theorem markLostWhere_getElem? (p : ℕ → Seg → Bool) (is : List ℕ) (j : ℕ) :
    (b.markLostWhere p is).1.segs[j]? = b.segs[j]?.map fun s =>
      if j ∈ is ∧ p j s = true ∧ s.sacked = false then { s with lost := true } else s := by
  rw [markLostWhere]
  generalize hacc : (b, false) = acc
  obtain rfl : b = acc.1 := by rw [← hacc]
  clear hacc
  induction is generalizing acc with
  | nil => simp
  | cons i is ih =>
    rw [List.foldl_cons, ih]
    split
    · rename_i hany
      rw [markLost_getElem?]
      cases hs : acc.1.segs[j]? with
      | none => rfl
      | some s =>
        by_cases hji : j = i
        · subst hji
          have hps : p j s = true := by simpa [hs] using hany
          cases hk : s.sacked <;> simp [hk, hps]
        · simp [hji]
    · rename_i hany
      cases hs : acc.1.segs[j]? with
      | none => rfl
      | some s =>
        have hne : p j s = true → j ≠ i := by
          rintro h rfl
          simp [hs, h] at hany
        simp only [Option.map_some, List.mem_cons, Option.some.injEq]
        congr 1
        simp only [eq_iff_iff]
        tauto

/-- A segment in flight that shares a byte with a record of its transmission is in the range the record has
live. -/
theorem mem_liveRange (hb : Books b) {r : TxRec} (hs : b.segs[j]? = some s) (hf : s.inFlight = true)
    (htx : r.tx = s.tx) (h1 : r.start < s.stop) (h2 : s.start < r.stop) :
    (b.liveRange r).1 ≤ j ∧ j < (b.liveRange r).2 := by
  obtain ⟨h3, h4, -⟩ := hb.bounds hs
  obtain ⟨hj, hsj⟩ := List.getElem?_eq_some_iff.mp hs
  rw [liveRange, if_neg (by omega)]
  simp only
  generalize hfirst : b.segs.findIdx (fun s => decide (r.start < s.stop)) = first
  have hle : first ≤ j := by
    by_contra hlt
    have := @List.not_of_lt_findIdx _ (fun s => decide (r.start < s.stop)) b.segs j (by omega)
    simp only [hsj, decide_eq_false_iff_not] at this
    omega
  generalize hcov : (b.segs.drop first).takeWhile (fun s => decide (s.start < r.stop)) = covered
  have hget : covered[j - first]? = some s := by
    rw [← hcov, List.takeWhile_eq_take_findIdx_not, List.getElem?_take_of_lt, List.getElem?_drop,
      Nat.add_sub_cancel' hle, hs]
    refine List.lt_findIdx_of_not (by simp; omega) ?_
    intro m hm
    have hmono := hb.start_mono (List.getElem?_eq_getElem (by omega : first + m < b.segs.length)) hs (by omega)
    simp only [List.getElem_drop, Bool.not_eq_true', decide_eq_false_iff_not]
    omega
  have hmem := List.mem_of_getElem? hget
  obtain ⟨hlt, hgs⟩ := List.getElem?_eq_some_iff.mp hget
  have hany : (covered.any fun s => s.tx == r.tx && s.inFlight) = true :=
    List.any_eq_true.mpr ⟨s, hmem, by simp [htx, hf]⟩
  rw [if_pos hany]
  refine ⟨?_, by simp only; omega⟩
  have : covered.findIdx (fun s => s.tx == r.tx) ≤ j - first := by
    by_contra hgt
    have := @List.not_of_lt_findIdx _ (fun s => s.tx == r.tx) covered (j - first) (by omega)
    simp [hgs, htx] at this
  simp only
  omega

/-- A record whose segments are all delivered, or sent again, or now marked lost, can go. -/
theorem scanLoop_covers (now reo : ℕ) (k : Rack) {tq kept : List TxRec} (marked : Bool) (timeout : ℕ)
    (hb : Books b) (hc : Covers (kept ++ tq) b.segs) :
    Covers ((scanLoop now reo k tq b kept marked timeout).kept ++
        (scanLoop now reo k tq b kept marked timeout).rest)
      (scanLoop now reo k tq b kept marked timeout).board.segs := by
  induction tq generalizing b kept marked timeout with
  | nil => exact hc
  | cons r rest ih =>
    -- a segment may lose the record `r` once it is not in flight within it
    have hdrop : ∀ c : Scoreboard, Covers (kept ++ r :: rest) c.segs →
        (∀ (j : ℕ) (s : Seg), c.segs[j]? = some s → s.inFlight = true → r.tx = s.tx → r.start ≤ s.start →
          s.stop ≤ r.stop → False) → Covers (kept ++ rest) c.segs := by
      intro c hcc hno s hs hf
      obtain ⟨r', hr', h1, h2, h3⟩ := hcc s hs hf
      obtain ⟨j, hj⟩ := List.mem_iff_getElem?.mp hs
      simp only [List.mem_append, List.mem_cons] at hr'
      rcases hr' with hr' | rfl | hr'
      · exact ⟨r', List.mem_append_left _ hr', h1, h2, h3⟩
      · exact (hno j s hj hf h1 h2 h3).elim
      · exact ⟨r', List.mem_append_right _ hr', h1, h2, h3⟩
    simp only [scanLoop]
    split_ifs with hafter hlive hdue
    · exact hc
    · refine ih _ _ hb (hdrop b hc ?_)
      intro j s hs hf h1 h2 h3
      have := hb.bounds hs
      have := mem_liveRange hb hs hf h1 (by omega) (by omega)
      omega
    · have e := markLostWhere_edits (m := false) (b := b) (d := {}) (fun _ s => s.tx == r.tx)
        (List.range' (b.liveRange r).1 ((b.liveRange r).2 - (b.liveRange r).1))
      refine ih _ _ (Edits.books e hb).1 (hdrop _ (Edits.covers e hc) ?_)
      intro j s hs hf h1 h2 h3
      rw [markLostWhere_getElem?] at hs
      obtain ⟨t, ht, rfl⟩ := Option.map_eq_some_iff.mp hs
      split_ifs at hf h1 h2 h3 with hmark
      · simp [Seg.inFlight] at hf
      · have := hb.bounds ht
        have hlive := mem_liveRange hb ht hf h1 (by omega) (by omega)
        refine hmark ⟨List.mem_range'_1.mpr (by omega), by simp [h1], ?_⟩
        simp only [Seg.inFlight, Bool.and_eq_true, Bool.not_eq_true'] at hf
        exact hf.1
    · exact ih _ _ hb (by simpa using hc)

theorem covers_detectLoss (hb : Books b) (hc : Covers b.tq b.segs) (now : Instant) (reo : Duration) :
    Covers (b.detectLoss now reo).1.tq (b.detectLoss now reo).1.segs := by
  simp only [detectLoss]
  split
  · exact hc
  · exact scanLoop_covers _ _ _ _ _ hb hc

theorem lostRecs_covers {a e : ℕ} (ht : Tiles Seg.start Seg.stop a l e) (back : List TxRec)
    (hback : ∀ r ∈ back, r.start ≤ r.stop) :
    (∀ r ∈ back, ∃ r' ∈ lostRecs l back, r'.tx = r.tx ∧ r'.start ≤ r.start ∧ r.stop ≤ r'.stop) ∧
      ∀ s ∈ l, s.lost = true → Covered (lostRecs l back) s := by
  induction l generalizing a back with
  | nil => exact ⟨fun r hr => ⟨r, hr, rfl, le_rfl, le_rfl⟩, by simp⟩
  | cons s l ih =>
    obtain ⟨-, hlt, hrest⟩ := ht
    rw [lostRecs]
    cases hl : s.lost with
    | false =>
      obtain ⟨h1, h2⟩ := ih hrest back hback
      simp only [Bool.not_false, if_true]
      refine ⟨h1, fun t ht htl => ?_⟩
      rcases List.mem_cons.mp ht with rfl | ht
      · rw [hl] at htl; cases htl
      · exact h2 t ht htl
    | true =>
      -- the next list of records, whose last covers `s`
      have step : ∀ back', (∀ r ∈ back', r.start ≤ r.stop) →
          (∀ r ∈ back, ∃ r' ∈ back', r'.tx = r.tx ∧ r'.start ≤ r.start ∧ r.stop ≤ r'.stop) →
          Covered back' s →
          (∀ r ∈ back, ∃ r' ∈ lostRecs l back', r'.tx = r.tx ∧ r'.start ≤ r.start ∧ r.stop ≤ r'.stop) ∧
            ∀ t ∈ s :: l, t.lost = true → Covered (lostRecs l back') t := by
        intro back' hb' hold hcov
        obtain ⟨h1, h2⟩ := ih hrest back' hb'
        refine ⟨fun r hr => ?_, fun t ht htl => ?_⟩
        · obtain ⟨r1, hr1, h3, h4, h5⟩ := hold r hr
          obtain ⟨r2, hr2, h6, h7, h8⟩ := h1 r1 hr1
          exact ⟨r2, hr2, h6.trans h3, h7.trans h4, h5.trans h8⟩
        · rcases List.mem_cons.mp ht with rfl | ht
          · obtain ⟨r1, hr1, h3, h4, h5⟩ := hcov
            obtain ⟨r2, hr2, h6, h7, h8⟩ := h1 r1 hr1
            exact ⟨r2, hr2, h6.trans h3, h7.trans h4, h5.trans h8⟩
          · exact h2 t ht htl
      simp only [Bool.not_true, Bool.false_eq_true, if_false]
      split
      · rename_i hnone
        rw [List.getLast?_eq_none_iff] at hnone
        subst hnone
        refine step _ ?_ (by simp) ⟨_, List.mem_singleton_self _, rfl, le_rfl, le_rfl⟩
        simpa using hlt.le
      · rename_i r hr
        obtain ⟨init, rfl⟩ := List.getLast?_eq_some_iff.mp hr
        have hrs := hback r (by simp)
        split
        · rename_i hj
          simp only [Bool.and_eq_true, beq_iff_eq] at hj
          rw [List.dropLast_concat]
          refine step _ ?_ ?_ ⟨_, List.mem_append_right _ (List.mem_singleton_self _), hj.1, ?_, le_rfl⟩
          · intro r' hr'
            rcases List.mem_append.mp hr' with hr' | hr'
            · exact hback r' (List.mem_append_left _ hr')
            · rw [List.mem_singleton.mp hr']
              simp only
              omega
          · intro r' hr'
            rcases List.mem_append.mp hr' with hr' | hr'
            · exact ⟨r', List.mem_append_left _ hr', rfl, le_rfl, le_rfl⟩
            · rw [List.mem_singleton.mp hr']
              refine ⟨_, List.mem_append_right _ (List.mem_singleton_self _), rfl, le_rfl, ?_⟩
              simp only
              omega
          · simp only
            omega
        · refine step _ ?_ (fun r' hr' => ⟨r', List.mem_append_left _ hr', rfl, le_rfl, le_rfl⟩)
            ⟨_, List.mem_append_right _ (List.mem_singleton_self _), rfl, le_rfl, le_rfl⟩
          intro r' hr'
          rcases List.mem_append.mp hr' with hr' | hr'
          · exact hback r' hr'
          · rw [List.mem_singleton.mp hr']
            exact hlt.le

/-- What is back in flight is back in the queue. -/
theorem covers_unmarkLost (hb : Books b) (hr : b.rackOn = true) (hc : Covers b.tq b.segs) :
    Covers b.unmarkLost.tq b.unmarkLost.segs := by
  obtain ⟨-, hrecs⟩ := lostRecs_covers hb.tiles [] (by simp)
  have hold : b.tq ⊆ b.unmarkLost.tq := by
    intro r hr
    simp only [unmarkLost]
    split_ifs <;> simp_all [List.mem_insertionSort]
  have hnew : lostRecs b.segs [] ⊆ b.unmarkLost.tq := by
    intro r hrec
    simp only [unmarkLost, hr, if_true]
    split_ifs with hempty
    · rw [List.isEmpty_iff.mp hempty] at hrec
      cases hrec
    · exact (List.mem_insertionSort _).mpr (List.mem_append_right _ hrec)
  intro t ht hf
  obtain ⟨s, hs, rfl⟩ := List.mem_map.mp ht
  cases hl : s.lost
  · exact ((hc s hs (by simpa [Seg.inFlight, hl] using hf)).mono hold).part rfl le_rfl le_rfl
  · exact ((hrecs s hs hl).mono hnew).part rfl le_rfl le_rfl

theorem covers_clearSacks_iff (hb : Books b) (hc : Covers b.tq b.segs) :
    Covers b.clearSacks.tq b.clearSacks.segs ↔ ∀ t ∈ b.segs, t.sacked = true → Covered b.tq t := by
  constructor
  · intro h t ht hk
    have hl := hb.excl t ht hk
    exact (h { t with sacked := false } (List.mem_map_of_mem ht) (by simp [Seg.inFlight, hl])).part
      rfl le_rfl le_rfl
  · intro h t ht hf
    obtain ⟨s, hs, rfl⟩ := List.mem_map.mp ht
    cases hk : s.sacked
    · exact (hc s hs (by simpa [Seg.inFlight, hk] using hf)).part rfl le_rfl le_rfl
    · exact (h s hs hk).part rfl le_rfl le_rfl

/-- What a timeout leaves of a segment, once no SACK is relied on. -/
theorem renege_getElem? (now : Instant) (reo : Duration) (j : ℕ) :
    (b.clearSacks.markLostOnRto now reo).segs[j]? = b.segs[j]?.map fun s =>
      if j = 0 ∨ s.xmit + (b.rack.rtt + reo) ≤ b.ns now then { s with sacked := false, lost := true }
      else { s with sacked := false } := by
  have hns : b.clearSacks.ns now = b.ns now := rfl
  have hrack : b.clearSacks.rack = b.rack := rfl
  have hsegs : b.clearSacks.segs = b.segs.map fun s => { s with sacked := false } := rfl
  simp only [markLostOnRto, markLostWhere_getElem?, hns, hrack, hsegs, List.getElem?_map, List.length_map]
  cases hs : b.segs[j]? with
  | none => rfl
  | some s =>
    obtain ⟨hj, -⟩ := List.getElem?_eq_some_iff.mp hs
    simp [hj]

theorem covers_renege_iff (hb : Books b) (hc : Covers b.tq b.segs) (now : Instant) (reo : Duration) :
    Covers (b.clearSacks.markLostOnRto now reo).tq (b.clearSacks.markLostOnRto now reo).segs ↔
      ∀ t ∈ b.segs.tail, t.sacked = true → b.ns now < t.xmit + (b.rack.rtt + reo) → Covered b.tq t := by
  have htq : (b.clearSacks.markLostOnRto now reo).tq = b.tq :=
    Edits.tq (x := (b.clearSacks, {})) (y := (b.clearSacks.markLostOnRto now reo, {})) (markLostWhere_edits _ _)
  rw [htq]
  constructor
  · intro h t ht hk hlate
    obtain ⟨j, hj⟩ := List.mem_iff_getElem?.mp ht
    rw [List.getElem?_tail] at hj
    have hl := hb.excl t (List.mem_of_getElem? hj) hk
    have hget := renege_getElem? (b := b) now reo (j + 1)
    rw [hj, Option.map_some, if_neg (by omega)] at hget
    exact (h _ (List.mem_of_getElem? hget) (by simp [Seg.inFlight, hl])).part rfl le_rfl le_rfl
  · intro h t ht hf
    obtain ⟨j, hj⟩ := List.mem_iff_getElem?.mp ht
    rw [renege_getElem?] at hj
    obtain ⟨s, hs, rfl⟩ := Option.map_eq_some_iff.mp hj
    split_ifs at hf with hcond
    · simp [Seg.inFlight] at hf
    · rw [if_neg hcond]
      cases hk : s.sacked
      · exact (hc s (List.mem_of_getElem? hs) (by simpa [Seg.inFlight, hk] using hf)).part rfl le_rfl le_rfl
      · obtain ⟨k, rfl⟩ := Nat.exists_eq_succ_of_ne_zero (fun h0 => hcond (.inl h0))
        exact (h s (List.mem_of_getElem? (by rwa [List.getElem?_tail])) hk (by omega)).part rfl le_rfl le_rfl

end Scoreboard

namespace Ledger

variable {s t : Ledger} {op : ScoreOp}

/-- SACKs are taken back only of segments the queue still covers, or that the timeout marks lost. -/
def Fair (s : Ledger) : ScoreOp → Prop
  | .clearSacks => ∀ t ∈ s.board.segs, t.sacked = true → Covered s.board.tq t
  | .renege now reo => ∀ t ∈ s.board.segs.tail, t.sacked = true →
      s.board.ns now < t.xmit + (s.board.rack.rtt + reo) → Covered s.board.tq t
  | _ => True

instance (s : Ledger) : (op : ScoreOp) → Decidable (Fair s op)
  | .clearSacks => inferInstanceAs (Decidable (∀ t ∈ s.board.segs, t.sacked = true → Covered s.board.tq t))
  | .renege now reo => inferInstanceAs (Decidable (∀ t ∈ s.board.segs.tail, t.sacked = true →
      s.board.ns now < t.xmit + (s.board.rack.rtt + reo) → Covered s.board.tq t))
  | .send .. | .retransmit .. | .beginAck | .ack .. | .sack .. | .rttSample .. | .rateSample | .onCe _
  | .markAppLimited | .setTrackLosses _ | .takeLosses | .reoWnd .. | .detectLoss .. | .markLostOnRto ..
  | .markAllLost | .markLongerLost _ | .markHeadLost | .markRangeLost .. | .unmarkLost | .setMss _ => isTrue trivial

/-- RACK is on and its queue covers all that is in flight. -/
structure Tracked (s : Ledger) : Prop extends Inv s where
  rackOn : s.board.rackOn = true
  covers : Covers s.board.tq s.board.segs

theorem Tracked.of_edits {d d' : Delivery} (h : Tracked s) (e : Edits false (s.board, d) (t.board, d')) :
    Tracked t where
  toInv := h.toInv.of_edits e
  rackOn := (Edits.frame e).2.2.2.2.trans h.rackOn
  covers := by
    have htq : t.board.tq = s.board.tq := Edits.tq e
    rw [htq]
    exact Edits.covers e h.covers

theorem tracked_step (h : Tracked s) (hf : Fair s op) (hs : step s op = some t) : Tracked t := by
  have hinv := inv_step h.toInv hs
  cases op with
  | send len fin now tsval =>
    obtain ⟨-, rfl⟩ := step_send hs
    obtain ⟨h1, h2⟩ := covers_onSend h.books h.room h.rackOn h.covers len fin now tsval
    exact ⟨hinv, h2, h1⟩
  | retransmit seq len now tsval =>
    obtain rfl := Option.some.inj hs
    exact ⟨hinv, (Edits.frame (onRetransmit_edits (d := {}) seq len now tsval)).2.2.2.2.trans h.rackOn,
      covers_onRetransmit h.books h.rackOn h.covers seq len now tsval⟩
  | ack a now ecr =>
    obtain rfl := Option.some.inj hs
    obtain ⟨h1, h2⟩ := covers_ack h.books h.covers a now ecr
    exact ⟨hinv, h2.trans h.rackOn, h1⟩
  | detectLoss now reo =>
    obtain rfl := Option.some.inj hs
    exact ⟨hinv, (Edits.frame (detectLoss_edits (d := {}) now reo)).2.2.2.2.trans h.rackOn,
      covers_detectLoss h.books h.covers now reo⟩
  | unmarkLost =>
    obtain rfl := Option.some.inj hs
    exact ⟨hinv, h.rackOn, covers_unmarkLost h.books h.rackOn h.covers⟩
  | clearSacks =>
    obtain rfl := Option.some.inj hs
    exact ⟨hinv, h.rackOn, (covers_clearSacks_iff h.books h.covers).mpr hf⟩
  | renege now reo =>
    obtain rfl := Option.some.inj hs
    have e : Edits false (s.board.clearSacks, {}) (s.board.clearSacks.markLostOnRto now reo, {}) :=
      markLostWhere_edits _ _
    exact ⟨hinv, (Edits.frame e).2.2.2.2.trans h.rackOn, (covers_renege_iff h.books h.covers now reo).mpr hf⟩
  | setMss mss =>
    obtain rfl := Option.some.inj hs
    exact ⟨hinv, h.rackOn, h.covers⟩
  | _ =>
    obtain ⟨d, e, -⟩ := step_edits h.books rfl hs
    exact h.of_edits e

/-- A call after which the queue covers all that is in flight was fair. -/
theorem fair_of_covers (h : Tracked s) (hs : step s op = some t) (ht : Covers t.board.tq t.board.segs) :
    Fair s op := by
  cases op with
  | clearSacks =>
    obtain rfl := Option.some.inj hs
    exact (covers_clearSacks_iff h.books h.covers).mp ht
  | renege now reo =>
    obtain rfl := Option.some.inj hs
    exact (covers_renege_iff h.books h.covers now reo).mp ht
  | _ => trivial

/-- With RACK on from the start, every segment in flight is in its queue in exactly the runs in
which SACKs are taken back only of segments the queue still covers. -/
theorem covered_iff_fair (una : Seq) (start : Instant) (ops : List ScoreOp) (s : Ledger)
    (h : run step (init una start true) ops = some s) :
    (∀ js ks t, ops = js ++ ks → run step (init una start true) js = some t →
      ∀ g ∈ t.board.segs, g.sacked = false → g.lost = false →
        ∃ r ∈ t.board.tq, r.tx = g.tx ∧ r.start ≤ g.start ∧ g.stop ≤ r.stop) ↔
    ∀ js op ks t, ops = js ++ op :: ks → run step (init una start true) js = some t → Fair t op := by
  refine run_states_iff (I := Tracked) (fun s hi g hg hk hl => hi.covers g hg (by simp [Seg.inFlight, hk, hl]))
    (fun _ _ _ => tracked_step) (fun s op t hi hs ht => fair_of_covers hi hs ?_) h
    ⟨inv_init una start true, rfl, by simp [Covers, init, Scoreboard.new, setRack]⟩
  intro g hg hf
  simp only [Seg.inFlight, Bool.and_eq_true, Bool.not_eq_true'] at hf
  exact ht g hg hf.1 hf.2

/-- Three of four segments are SACKed, a scan takes the records of the first two of these off the
queue, and the hole before them is filled. -/
def sackedThree : List ScoreOp :=
  [.setMss 1000, .send 1000 false 0 0, .send 1000 false 1 0, .send 1000 false 2 0, .send 1000 false 3 0,
    .beginAck, .sack [⟨1000, 4000⟩] 13 none, .detectLoss 13 100, .beginAck, .ack 1000 14 none]

/-- A timeout much later marks all of them lost. -/
theorem covered_iff_fair_sackedThree :
    (∃ s, run step (init 0 0 true) (sackedThree ++ [.renege 500 100]) = some s) ∧
      ∀ js ks t, sackedThree ++ [.renege 500 100] = js ++ ks → run step (init 0 0 true) js = some t →
        ∀ g ∈ t.board.segs, g.sacked = false → g.lost = false →
          ∃ r ∈ t.board.tq, r.tx = g.tx ∧ r.start ≤ g.start ∧ g.stop ≤ r.stop := by
  have hrun : (run step (init 0 0 true) (sackedThree ++ [.renege 500 100])).map (fun _ => ()) = some () := by
    decide
  obtain ⟨s, hs, -⟩ := Option.map_eq_some_iff.mp hrun
  exact ⟨⟨s, hs⟩, (covered_iff_fair 0 0 _ s hs).mpr (along_sound (by decide))⟩

/-- A timeout that finds the receiver has dropped them, within their round trip and reordering
window, marks the first lost; the second is in flight and in no record of the queue, whose two
records are of other transmissions. -/
theorem sackedThree_renege_forgets :
    ∃ s, run step (init 0 0 true) (sackedThree ++ [.clearSacks, .markLostOnRto 50 100]) = some s ∧
      (∃ g ∈ s.board.segs, g.start = 2000 ∧ g.sacked = false ∧ g.lost = false ∧ g.tx = 2) ∧
      s.board.tq.map TxRec.tx = [0, 3] :=
  exists_of_any (by decide) fun _ _ h => h

end Ledger

end PktKit.Vtcp
