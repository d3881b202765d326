import PktKit.Vtcp.Scoreboard.Scan

/-! # A scan of the queue and an examination of every segment

RACK goes over its queue, oldest first, and stops at the first record that was not
sent before its reference. Where the queue is in order, and the records carry the
send times of their segments, it finds what looking at every segment would find.
-/

namespace PktKit.Vtcp
open Foundations.Runs Foundations.Tilings Scoreboard

namespace Scoreboard

variable {b : Scoreboard} {s t : Seg} {r : TxRec} {tq kept : List TxRec} {j now reo : ℕ} {k : Rack}

/-- The segment shares a byte with the record of its transmission. -/
def under (r : TxRec) (s : Seg) : Bool := r.tx == s.tx && decide (r.start < s.stop) && decide (s.start < r.stop)

/-- The segment is under a record sent before RACK's reference. -/
def hit (k : Rack) (tq : List TxRec) (s : Seg) : Bool :=
  tq.any fun r => sentAfter k.xmit k.stop r.xmit r.stop && under r s

/-- The segment was sent before RACK's reference, by its send time and then by the end of what was sent. -/
def precedes (b : Scoreboard) (s : Seg) : Bool := b.rack.valid && hit b.rack b.tq s

/-- When the segment is due, a round trip and the reordering window after it was sent. -/
def dueAt (k : Rack) (reo : ℕ) (s : Seg) : ℕ := s.xmit + k.rtt + reo

theorem under_iff : under r s = true ↔ r.tx = s.tx ∧ r.start < s.stop ∧ s.start < r.stop := by
  simp [under, and_assoc]

/-- From the first segment on that ends past an offset, all do. -/
theorem lt_stop_of_findIdx (hb : Books b) {x : ℕ} (hs : b.segs[j]? = some s)
    (h : b.segs.findIdx (fun s => decide (x < s.stop)) ≤ j) : x < s.stop := by
  obtain ⟨hj, rfl⟩ := List.getElem?_eq_some_iff.mp hs
  generalize hfirst : b.segs.findIdx (fun s => decide (x < s.stop)) = first at h
  have hlt : first < b.segs.length := by omega
  have hend : x < b.segs[first].stop := by
    subst hfirst
    simpa using List.findIdx_getElem (w := hlt)
  rcases Nat.eq_or_lt_of_le h with rfl | hbefore
  · exact hend
  · have h3 := List.pairwise_iff_getElem.mp hb.tiles.pairwise first j hlt hj hbefore
    have h4 := (hb.tiles.mem_bounds (List.getElem_mem hj)).2.1
    omega

/-- What the live range holds shares a byte with the record. -/
theorem of_mem_liveRange (hb : Books b) (h1 : (b.liveRange r).1 ≤ j) (h2 : j < (b.liveRange r).2) :
    ∃ s, b.segs[j]? = some s ∧ r.start < s.stop ∧ s.start < r.stop := by
  rw [liveRange] at h1 h2
  split at h1
  · rename_i hbelow
    rw [if_pos hbelow] at h2
    cases h2
  · rename_i hbelow
    rw [if_neg hbelow] at h2
    simp only at h1 h2
    split at h1
    · rename_i hany
      rw [if_pos hany] at h2
      simp only at h1 h2
      generalize hfirst : b.segs.findIdx (fun s => decide (r.start < s.stop)) = first at h1 h2
      generalize hcov : (b.segs.drop first).takeWhile (fun s => decide (s.start < r.stop)) = covered at h1 h2
      have hget : covered[j - first]? = some covered[j - first] := List.getElem?_eq_getElem (by omega)
      generalize covered[j - first] = s at hget
      have hstart : s.start < r.stop := by
        have := List.mem_takeWhile_imp (hcov ▸ List.mem_of_getElem? hget)
        simpa using this
      have hsj : b.segs[j]? = some s := by
        obtain ⟨rest, hrest⟩ := List.takeWhile_prefix (fun s => decide (s.start < r.stop)) (l := b.segs.drop first)
        have hdrop : (b.segs.drop first)[j - first]? = some s := by
          rw [← hrest, hcov, List.getElem?_append_left (by omega), hget]
        rwa [List.getElem?_drop, Nat.add_sub_cancel' (by omega)] at hdrop
      exact ⟨s, hsj, lt_stop_of_findIdx hb hsj (by omega), hstart⟩
    · rename_i hany
      rw [if_neg hany] at h2
      cases h2

theorem not_under_of_liveRange (hb : Books b) (h : (b.liveRange r).2 ≤ (b.liveRange r).1) (hs : s ∈ b.segs)
    (hf : s.inFlight = true) : under r s = false := by
  by_contra hu
  obtain ⟨htx, h1, h2⟩ := under_iff.mp (by simpa using hu)
  obtain ⟨j, hj⟩ := List.mem_iff_getElem?.mp hs
  have := mem_liveRange hb hj hf htx h1 h2
  omega

theorem exists_under_of_liveRange (hb : Books b) (h : (b.liveRange r).1 < (b.liveRange r).2) :
    ∃ s ∈ b.segs, s.inFlight = true ∧ under r s = true := by
  rw [liveRange] at h
  split at h
  · cases h
  · simp only at h
    split at h
    · rename_i hany
      obtain ⟨s, hs, hsf⟩ := List.any_eq_true.mp hany
      rw [Bool.and_eq_true, beq_iff_eq] at hsf
      have hstart := List.mem_takeWhile_imp hs
      have hdrop := (List.takeWhile_sublist _).subset hs
      obtain ⟨j, hj⟩ := List.mem_iff_getElem?.mp hdrop
      rw [List.getElem?_drop] at hj
      exact ⟨s, List.mem_of_mem_drop hdrop, hsf.2, under_iff.mpr ⟨hsf.1.symm,
        lt_stop_of_findIdx hb hj (Nat.le_add_right _ _), by simpa using hstart⟩⟩
    · cases h

theorem markLive_segs (hb : Books b) (r : TxRec) :
    (b.markLostWhere (fun _ s => s.tx == r.tx)
      (List.range' (b.liveRange r).1 ((b.liveRange r).2 - (b.liveRange r).1))).1.segs =
      b.segs.map fun s => if s.inFlight && under r s then { s with lost := true } else s := by
  apply List.ext_getElem?
  intro j
  rw [markLostWhere_getElem?, List.getElem?_map]
  cases hs : b.segs[j]? with
  | none => rfl
  | some s =>
    simp only [Option.map_some, Option.some.injEq]
    by_cases hin : s.inFlight = true ∧ under r s = true
    · obtain ⟨htx, h1, h2⟩ := under_iff.mp hin.2
      have hlive := mem_liveRange hb hs hin.1 htx h1 h2
      have hk : s.sacked = false := by
        have := hin.1
        simp only [Seg.inFlight, Bool.and_eq_true, Bool.not_eq_true'] at this
        exact this.1
      rw [if_pos ⟨List.mem_range'_1.mpr (by omega), by simp [htx], hk⟩, if_pos (by simp [hin])]
    · have hsame : (if (s.inFlight && under r s) = true then { s with lost := true } else s) = s :=
        if_neg (by simpa using hin)
      rw [hsame]
      split
      · rename_i hmark
        obtain ⟨hmem, htx, hk⟩ := hmark
        rw [List.mem_range'_1] at hmem
        obtain ⟨s', hs', h1, h2⟩ := of_mem_liveRange hb (j := j) hmem.1 (by omega)
        obtain rfl := Option.some.inj (hs.symm.trans hs')
        have hu : under r s = true := under_iff.mpr ⟨(beq_iff_eq.mp htx).symm, h1, h2⟩
        have hl : s.lost = true := by
          by_contra hl
          exact hin ⟨by simp [Seg.inFlight, hk, hl], hu⟩
        rw [← hl]
      · rfl

/-- The records carry the send times of the segments in flight of their transmissions. -/
def Timed (tq : List TxRec) (l : List Seg) : Prop :=
  ∀ r ∈ tq, ∀ s ∈ l, s.inFlight = true → r.tx = s.tx → r.xmit = s.xmit

/-- A record sent before one that precedes the reference precedes it. -/
theorem sentAfter_mono {r' : TxRec} (h : txLe r r') (h' : sentAfter k.xmit k.stop r'.xmit r'.stop = true) :
    sentAfter k.xmit k.stop r.xmit r.stop = true := by
  simp only [sentAfter, txLe, Bool.or_eq_true, Bool.and_eq_true, decide_eq_true_eq, beq_iff_eq] at h h' ⊢
  omega

/-- Once a record does not precede the reference, none does that comes after. -/
theorem hit_eq_false (hord : (r :: tq).Pairwise txLe) (h : sentAfter k.xmit k.stop r.xmit r.stop =
    false) (s : Seg) :
    hit k (r :: tq) s = false := by
  refine List.any_eq_false.mpr fun r' hr' hit => ?_
  rw [Bool.and_eq_true] at hit
  have : txLe r r' := by
    rcases List.mem_cons.mp hr' with rfl | hr'
    · exact .inr ⟨rfl, le_rfl⟩
    · exact (List.pairwise_cons.mp hord).1 r' hr'
  rw [sentAfter_mono this hit.1] at h
  cases h

theorem hit_cons : hit k (r :: tq) s = (sentAfter k.xmit k.stop r.xmit r.stop && under r s || hit k tq s) := rfl

theorem inFlight_of_marked {p : Bool} (hf : (if p then { s with lost := true } else s).inFlight = true) :
    p = false ∧ s.inFlight = true := by
  cases p with
  | true => simp [Seg.inFlight] at hf
  | false => exact ⟨rfl, hf⟩

theorem Timed.marked {l : List Seg} {p : Seg → Bool} (h : Timed (r :: tq) l) :
    Timed tq (l.map fun s => if p s then { s with lost := true } else s) := by
  intro r' hr' t ht hf htx
  obtain ⟨s, hs, rfl⟩ := List.mem_map.mp ht
  obtain ⟨hp, hsf⟩ := inFlight_of_marked hf
  simp only [hp, Bool.false_eq_true, if_false] at htx ⊢
  exact h r' (List.mem_cons_of_mem r hr') s hs hsf htx

theorem Timed.dueAt {l : List Seg} (h : Timed (r :: tq) l) (hs : s ∈ l) (hf : s.inFlight = true)
    (hu : under r s = true)
    (k : Rack) (reo : ℕ) :
    dueAt k reo s = r.xmit + k.rtt + reo := by
  rw [Scoreboard.dueAt, h r List.mem_cons_self s hs hf (under_iff.mp hu).1]

/-- The scan marks what was sent before the reference and is overdue. -/
theorem scanLoop_segs (hb : Books b) (hord : tq.Pairwise txLe) (htimed : Timed tq b.segs)
    (marked : Bool) (timeout : ℕ) :
    (scanLoop now reo k tq b kept marked timeout).board.segs = b.segs.map fun s =>
      if s.inFlight && hit k tq s && decide (dueAt k reo s ≤ now) then { s with lost := true } else s := by
  induction tq generalizing b kept marked timeout with
  | nil => simp [scanLoop, hit]
  | cons r rest ih =>
    have hrest := (List.pairwise_cons.mp hord).2
    have htail : Timed rest b.segs := fun r' hr' => htimed r' (List.mem_cons_of_mem r hr')
    simp only [scanLoop]
    split_ifs with hafter hlive hdue
    · -- nothing from here on was sent before the reference
      rw [Bool.not_eq_true'] at hafter
      simp [hit_eq_false hord hafter]
    · rw [ih hb hrest htail]
      refine List.map_congr_left fun s hs => ?_
      cases hf : s.inFlight with
      | false => rfl
      | true => simp [hit_cons, not_under_of_liveRange hb hlive hs hf]
    · have e := markLostWhere_edits (m := false) (b := b) (d := {}) (fun _ s => s.tx == r.tx)
        (List.range' (b.liveRange r).1 ((b.liveRange r).2 - (b.liveRange r).1))
      rw [ih (Edits.books e hb).1 hrest (by rw [markLive_segs hb r]; exact htimed.marked), markLive_segs hb r,
        List.map_map]
      refine List.map_congr_left fun s hs => ?_
      simp only [Bool.not_eq_true', Bool.not_eq_false] at hafter
      simp only [Function.comp_apply, hit_cons, hafter, Bool.true_and]
      cases hf : s.inFlight with
      | false => simp [hf]
      | true =>
        cases hu : under r s with
        | true =>
          have hd := htimed.dueAt hs hf hu k reo
          simp [Seg.inFlight, hd, hdue]
        | false => simp [hf]
    · rw [ih hb hrest htail]
      refine List.map_congr_left fun s hs => ?_
      cases hf : s.inFlight with
      | false => rfl
      | true =>
        cases hu : under r s with
        | true =>
          have hd := htimed.dueAt hs hf hu k reo
          simp [hd, hdue]
        | false => simp [hit_cons, hu]

/-- The wait is that of a segment sent before the reference and not yet due, and no such segment has a longer
one. -/
theorem scanLoop_wait (hb : Books b) (hord : tq.Pairwise txLe) (htimed : Timed tq b.segs) (now reo : ℕ) (k : Rack)
    (kept : List TxRec) (marked : Bool) (timeout : ℕ) :
    timeout ≤ (scanLoop now reo k tq b kept marked timeout).timeout ∧
      (∀ s ∈ b.segs, s.inFlight = true → hit k tq s = true → now < dueAt k reo s →
        dueAt k reo s - now ≤ (scanLoop now reo k tq b kept marked timeout).timeout) ∧
      ((scanLoop now reo k tq b kept marked timeout).timeout = timeout ∨
        ∃ s ∈ b.segs, s.inFlight = true ∧ hit k tq s = true ∧ now < dueAt k reo s ∧
          (scanLoop now reo k tq b kept marked timeout).timeout = dueAt k reo s - now) := by
  induction tq generalizing b kept marked timeout with
  | nil => simp [scanLoop, hit]
  | cons r rest ih =>
    have hrest := (List.pairwise_cons.mp hord).2
    have htail : Timed rest b.segs := fun r' hr' => htimed r' (List.mem_cons_of_mem r hr')
    have hmore : ∀ s, hit k rest s = true → hit k (r :: rest) s = true := fun s h => by simp [hit_cons, h]
    simp only [scanLoop]
    split_ifs with hafter hlive hdue
    · rw [Bool.not_eq_true'] at hafter
      simp [hit_eq_false hord hafter]
    · obtain ⟨h1, h2, h3⟩ := ih hb hrest htail kept marked timeout
      refine ⟨h1, fun s hs hf hh hw => ?_, ?_⟩
      · rw [hit_cons, not_under_of_liveRange hb hlive hs hf, Bool.and_false, Bool.false_or] at hh
        exact h2 s hs hf hh hw
      · refine h3.imp_right ?_
        rintro ⟨s, hs, hf, hh, hw⟩
        exact ⟨s, hs, hf, hmore s hh, hw⟩
    · have e := markLostWhere_edits (m := false) (b := b) (d := {}) (fun _ s => s.tx == r.tx)
        (List.range' (b.liveRange r).1 ((b.liveRange r).2 - (b.liveRange r).1))
      have hmarked := markLive_segs hb r
      obtain ⟨h1, h2, h3⟩ := ih (Edits.books e hb).1 hrest (by rw [hmarked]; exact htimed.marked) kept
        (marked || (b.markLostWhere (fun _ s => s.tx == r.tx)
          (List.range' (b.liveRange r).1 ((b.liveRange r).2 - (b.liveRange r).1))).2) timeout
      rw [hmarked] at h2 h3
      refine ⟨h1, fun s hs hf hh hw => ?_, ?_⟩
      · cases hu : under r s with
        | true =>
          have hd := htimed.dueAt hs hf hu k reo
          omega
        | false =>
          rw [hit_cons, hu, Bool.and_false, Bool.false_or] at hh
          exact h2 s (List.mem_map.mpr ⟨s, hs, by simp [hu]⟩) hf hh hw
      · refine h3.imp_right ?_
        rintro ⟨t, ht, hf, hh, hw⟩
        obtain ⟨s, hs, rfl⟩ := List.mem_map.mp ht
        obtain ⟨hp, hsf⟩ := inFlight_of_marked hf
        simp only [hp, Bool.false_eq_true, if_false] at hh hw
        exact ⟨s, hs, hsf, hmore s hh, hw⟩
    · obtain ⟨h1, h2, h3⟩ := ih hb hrest htail (kept ++ [r]) marked (max timeout (r.xmit + k.rtt + reo - now))
      obtain ⟨u, hu, huf, huu⟩ := exists_under_of_liveRange hb
        (show (b.liveRange r).1 < (b.liveRange r).2 by omega)
      simp only [Bool.not_eq_true', Bool.not_eq_false] at hafter
      refine ⟨(le_max_left _ _).trans h1, fun s hs hf hh hw => ?_, ?_⟩
      · cases hus : under r s with
        | true =>
          rw [htimed.dueAt hs hf hus k reo]
          exact (le_max_right _ _).trans h1
        | false =>
          rw [hit_cons, hus, Bool.and_false, Bool.false_or] at hh
          exact h2 s hs hf hh hw
      · rcases h3 with h3 | ⟨s, hs, hf, hh, hw⟩
        · rcases max_choice timeout (r.xmit + k.rtt + reo - now) with hm | hm
          · exact .inl (h3.trans hm)
          · have hd := htimed.dueAt hu huf huu k reo
            exact .inr ⟨u, hu, huf, by simp [hit_cons, hafter, huu], by omega, by rw [h3, hm, hd]⟩
        · exact .inr ⟨s, hs, hf, hmore s hh, hw⟩

theorem scanLoop_sublist (b : Scoreboard) (kept : List TxRec) (marked : Bool) (timeout : ℕ) :
    ((scanLoop now reo k tq b kept marked timeout).kept ++
      (scanLoop now reo k tq b kept marked timeout).rest).Sublist (kept ++ tq) := by
  induction tq generalizing b kept marked timeout with
  | nil => exact List.Sublist.refl _
  | cons r rest ih =>
    simp only [scanLoop]
    split_ifs
    · exact List.Sublist.refl _
    · exact (ih _ _ _ _).trans (List.Sublist.append_left (List.sublist_cons_self r rest) kept)
    · exact (ih _ _ _ _).trans (List.Sublist.append_left (List.sublist_cons_self r rest) kept)
    · have := ih b (kept ++ [r]) marked (max timeout (r.xmit + k.rtt + reo - now))
      rwa [List.append_assoc] at this

/-- Whatever the time and the reordering window, with the queue in order, covering what is in flight and
carrying its send times: the scan marks lost exactly the segments in flight that were sent before RACK's
reference and are overdue, the wait is the longest of those not yet due, and the queue is as it should be
afterwards. -/
theorem detectLoss_examines (b : Scoreboard) (hb : Books b) (hon : b.rackOn = true) (hord : b.tq.Pairwise txLe)
    (hcov : ∀ s ∈ b.segs, s.sacked = false → s.lost = false →
      ∃ r ∈ b.tq, r.tx = s.tx ∧ r.start ≤ s.start ∧ s.stop ≤ r.stop)
    (htimed : ∀ r ∈ b.tq, ∀ s ∈ b.segs, s.sacked = false → s.lost = false → r.tx = s.tx → r.xmit = s.xmit)
    (now : Instant) (reo : Duration) :
    (b.detectLoss now reo).1.segs = b.segs.map (fun s =>
      if s.inFlight && b.precedes s && decide (dueAt b.rack reo s ≤ b.ns now) then
        { s with lost := true } else s) ∧
    (b.detectLoss now reo).2.2 = ((b.segs.filter fun s =>
      s.inFlight && b.precedes s && decide (b.ns now < dueAt b.rack reo s)).map
        fun s => dueAt b.rack reo s - b.ns now).max? ∧
    (b.detectLoss now reo).1.tq.Pairwise txLe ∧
    ∀ s ∈ (b.detectLoss now reo).1.segs, s.sacked = false → s.lost = false →
      ∃ r ∈ (b.detectLoss now reo).1.tq, r.tx = s.tx ∧ r.start ≤ s.start ∧ s.stop ≤ r.stop := by
  have hflight : ∀ s : Seg, s.inFlight = true ↔ s.sacked = false ∧ s.lost = false :=
    fun s => by simp [Seg.inFlight]
  have hcov' : Covers b.tq b.segs := fun s hs hf => hcov s hs ((hflight s).mp hf).1 ((hflight s).mp hf).2
  have htimed' : Timed b.tq b.segs := fun r hr s hs hf =>
    htimed r hr s hs ((hflight s).mp hf).1 ((hflight s).mp hf).2
  have hafter := covers_detectLoss hb hcov' now reo
  have hfinal : ∀ s ∈ (b.detectLoss now reo).1.segs, s.sacked = false → s.lost = false →
      ∃ r ∈ (b.detectLoss now reo).1.tq, r.tx = s.tx ∧ r.start ≤ s.start ∧ s.stop ≤ r.stop :=
    fun s hs hk hl => hafter s hs ((hflight s).mpr ⟨hk, hl⟩)
  cases hv : b.rack.valid with
  | false =>
    have hsame : b.detectLoss now reo = (b, false, none) := by simp [detectLoss, hv]
    have hno : ∀ s, b.precedes s = false := fun s => by simp [precedes, hv]
    refine ⟨?_, ?_, ?_, hfinal⟩
    · simp [hsame, hno]
    · simp [hsame, hno]
    · rw [hsame]
      exact hord
  | true =>
    have hprec : ∀ s, b.precedes s = hit b.rack b.tq s := fun s => by simp [precedes, hv]
    have hscan : b.detectLoss now reo =
        ({ (scanLoop (b.ns now) reo b.rack b.tq b [] false 0).board with
            tq := (scanLoop (b.ns now) reo b.rack b.tq b [] false 0).kept ++
              (scanLoop (b.ns now) reo b.rack b.tq b [] false 0).rest },
          (scanLoop (b.ns now) reo b.rack b.tq b [] false 0).marked,
          if 0 < (scanLoop (b.ns now) reo b.rack b.tq b [] false 0).timeout then
            some (scanLoop (b.ns now) reo b.rack b.tq b [] false 0).timeout else none) := by
      simp [detectLoss, hon, hv]
    refine ⟨?_, ?_, ?_, hfinal⟩
    · simp only [hscan, hprec]
      exact scanLoop_segs hb hord htimed' false 0
    · obtain ⟨-, hmax, hsome⟩ := scanLoop_wait hb hord htimed' (b.ns now) reo b.rack [] false 0
      simp only [hscan, hprec]
      generalize (scanLoop (b.ns now) reo b.rack b.tq b [] false 0).timeout = wait at hmax hsome ⊢
      have hmem : ∀ {s}, s ∈ b.segs.filter (fun s => s.inFlight && hit b.rack b.tq s &&
          decide (b.ns now < dueAt b.rack reo s)) ↔ s ∈ b.segs ∧ s.inFlight = true ∧ hit b.rack b.tq s = true ∧
            b.ns now < dueAt b.rack reo s := by
        intro s
        simp [and_assoc]
      rcases hsome with rfl | ⟨s, hs, hf, hh, hw, rfl⟩
      · -- no one waits
        have hnone : b.segs.filter (fun s => s.inFlight && hit b.rack b.tq s &&
            decide (b.ns now < dueAt b.rack reo s)) = [] := by
          refine List.eq_nil_iff_forall_not_mem.mpr fun s hs => ?_
          obtain ⟨h1, h2, h3, h4⟩ := hmem.mp hs
          have := hmax s h1 h2 h3 h4
          omega
        simp [hnone]
      · rw [if_pos (by omega)]
        symm
        rw [List.max?_eq_some_iff]
        refine ⟨List.mem_map.mpr ⟨s, hmem.mpr ⟨hs, hf, hh, hw⟩, rfl⟩, ?_⟩
        intro n hn
        obtain ⟨t, ht, rfl⟩ := List.mem_map.mp hn
        obtain ⟨h1, h2, h3, h4⟩ := hmem.mp ht
        exact hmax t h1 h2 h3 h4
    · rw [hscan]
      exact hord.sublist (by simpa using scanLoop_sublist b [] false 0)

end Scoreboard

namespace Ledger

/-- Three segments, the second an aggregate; its middle is SACKed, and the last. -/
def middleSacked : List ScoreOp :=
  [.setMss 1000, .send 1000 false 1 0, .send 3000 false 2 0, .send 1000 false 3 0, .beginAck,
    .sack [⟨2000, 3000⟩, ⟨4000, 5000⟩] 13 none]

theorem detectLoss_examines_middleSacked :
    ∃ s, run step (init 0 0 true) middleSacked = some s ∧
      ((s.board.detectLoss 13 2).1.segs.map Seg.lost = [true, false, false, false, false] ∧
        (s.board.detectLoss 13 2).2.2 = some 1) ∧
      (s.board.detectLoss 13 2).1.tq.Pairwise txLe := by
  refine exists_of_any (P := fun s => s.board.rackOn = true ∧
    s.board.tq.Pairwise txLe ∧ (∀ g ∈ s.board.segs, g.sacked = false → g.lost = false →
      ∃ r ∈ s.board.tq, r.tx = g.tx ∧ r.start ≤ g.start ∧ g.stop ≤ r.stop) ∧
    (∀ r ∈ s.board.tq, ∀ g ∈ s.board.segs, g.sacked = false → g.lost = false → r.tx = g.tx → r.xmit = g.xmit) ∧
    (s.board.detectLoss 13 2).1.segs.map Seg.lost = [true, false, false, false, false] ∧
    (s.board.detectLoss 13 2).2.2 = some 1) (by decide +kernel) ?_
  rintro s hs ⟨hon, hord, hcov, htimed, hres⟩
  exact ⟨hres, (detectLoss_examines s.board (inv_run hs).books hon hord hcov htimed 13 2).2.2.1⟩

/-- The scan takes the aggregate's record off the queue, its pieces are back as records of their own once
nothing is lost after all, and its SACKed middle is in flight again: a record of its transmission is queued,
none it lies within, and the next scan passes it over. -/
theorem piece_between_records_missed :
    ∃ s, run step (init 0 0 true) (middleSacked ++ [.detectLoss 14 1, .unmarkLost, .clearSacks]) = some s ∧
      (s.board.rackOn = true ∧ s.board.rack.valid = true ∧ s.board.tq.Pairwise txLe ∧
        ∀ g ∈ s.board.segs, g.sacked = false → g.lost = false → ∃ r ∈ s.board.tq, r.tx = g.tx) ∧
      ∃ g ∈ (s.board.detectLoss 15 1).1.segs, g.start = 2000 ∧ g.sacked = false ∧ g.lost = false ∧
        g.xmit < s.board.rack.xmit ∧ g.xmit + s.board.rack.rtt + 1 ≤ s.board.ns 15 :=
  exists_of_any (by decide +kernel) fun _ _ h => h

end Ledger

end PktKit.Vtcp
