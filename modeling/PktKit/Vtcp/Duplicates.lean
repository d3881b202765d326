import PktKit.Vtcp.Budget

/-! # What an insert reports as received twice

An insert records the lowest stretch of its segment that was read already or is held
past a hole. It is found on one of four paths: before RCV.NXT, in the first range that
in-order bytes run into, in the ranges met past a hole, or nowhere.
-/

namespace PktKit.Vtcp
open Foundations Foundations.Wrapping Foundations.Fragments

namespace RecvBuf

variable {α : Type*} {base seq : Seq} {b b' : RecvBuf α} {d : List α} {e i j n o p q : ℕ}

/-- The byte at offset `o` came in order already, or is held past a hole. -/
def Had (b : RecvBuf α) (o : ℕ) : Prop := o < b.nxtOff ∨ (b.heldAt o).isSome

/-- Where a segment at offset `p` ends, cut at the window's edge; without a window what comes in order
is not cut. -/
def cutEnd (b : RecvBuf α) (p : ℕ) (d : List α) : ℕ :=
  if 0 < b.windowSize ∨ b.nxtOff < p then min (p + d.length) (b.nxtOff + b.window) else p + d.length

/-- `[i, j)` is the lowest stretch of `[p, e)` that is there already. -/
structure Lowest (b : RecvBuf α) (p e i j : ℕ) : Prop where
  within : p ≤ i ∧ i < j ∧ j ≤ e
  had : ∀ o, i ≤ o → o < j → b.Had o
  first : ∀ o, p ≤ o → o < i → ¬ b.Had o
  maximal : j = e ∨ ¬ b.Had j

/-- A truthful report on a segment `[p, e)`: the lowest stretch that was there already, or none
where none was. -/
def Truthful (base : Seq) (b : RecvBuf α) (p e : ℕ) : Option SackBlock → Prop
  | none => ∀ o, p ≤ o → o < e → ¬ b.Had o
  | some block => ∃ i j, block = ⟨pos base i, pos base j⟩ ∧ b.Lowest p e i j

theorem Truthful.change_dup {r dup : Option SackBlock} (h : Truthful base { b with dup := dup } p e r) :
    Truthful base b p e r := by
  cases r with
  | none => exact h
  | some block =>
    obtain ⟨i, j, hblock, hlow⟩ := h
    exact ⟨i, j, hblock, hlow.within, hlow.had, hlow.first, hlow.maximal⟩

/-- Past RCV.NXT a byte is there already where a range holds it. -/
theorem had_iff (hlo : b.nxtOff ≤ o) : b.Had o ↔ ∃ x ∈ b.ooo, x.1 ≤ o ∧ o < rangeEnd x := by
  rw [Had, heldAt_isSome_iff]
  constructor
  · rintro (hlt | hx)
    · omega
    · exact hx
  · exact .inr

theorem Shape.not_had_nxtOff (h : Shape base b) : ¬ b.Had b.nxtOff := by
  rw [had_iff le_rfl]
  rintro ⟨x, hx, hxo, -⟩
  have := (h.ahead x hx).1
  omega

theorem Shape.not_had_rangeEnd (h : Shape base b) {x : ℕ × OooEntry α} (hx : x ∈ b.ooo) :
    ¬ b.Had (rangeEnd x) := by
  have h1 := (h.ahead x hx).1
  have h2 := h.lt_rangeEnd hx
  rw [had_iff (by omega)]
  rintro ⟨y, hy, hyo, hoy⟩
  rcases h.trichotomy hx hy with rfl | hap | hap <;> omega

/-- A range that overlaps the segment, none below it doing so, gives the lowest stretch. -/
theorem Shape.lowest_of_range (h : Shape base b) {x : ℕ × OooEntry α} (hx : x ∈ b.ooo) (hp : b.nxtOff ≤ p)
    (hover : max x.1 p < min (rangeEnd x) e)
    (hbelow : ∀ y ∈ b.ooo, rangeEnd y < x.1 → rangeEnd y ≤ p) :
    b.Lowest p e (max x.1 p) (min (rangeEnd x) e) := by
  refine ⟨⟨by omega, hover, by omega⟩, fun o hlo hhi => ?_, fun o hlo hhi => ?_, ?_⟩
  · rw [had_iff (by omega)]
    exact ⟨x, hx, by omega, by omega⟩
  · rw [had_iff (by omega)]
    rintro ⟨y, hy, hyo, hoy⟩
    rcases h.trichotomy hx hy with rfl | hap | hap
    · omega
    · omega
    · have h2 := hbelow y hy hap.2.1
      omega
  · by_cases hle : e ≤ rangeEnd x
    · left
      omega
    · right
      rw [Nat.min_eq_left (by omega)]
      exact h.not_had_rangeEnd hx

/-! ## What leaves the report alone -/

theorem mergeLoop_frame {xs : List (ℕ × OooEntry α)} (h : mergeLoop xs b = some b') :
    b'.dup = b.dup ∧ b'.recent = b.recent := by
  induction xs generalizing b with
  | nil =>
    obtain rfl := Option.some.inj h
    exact ⟨rfl, rfl⟩
  | cons x xs ih =>
    rw [mergeLoop] at h
    split at h
    · obtain rfl := Option.some.inj h
      exact ⟨rfl, rfl⟩
    · simp only at h
      split at h
      · split at h
        · simp at h
        · obtain ⟨h1, h2⟩ := ih h
          exact ⟨h1, h2⟩
      · obtain ⟨h1, h2⟩ := ih h
        exact ⟨h1, h2⟩

theorem mergeOoo_frame (h : b.mergeOoo = some b') :
    b'.dup = b.dup ∧ b'.recent = b.recent.filter (seqAfterEq · b'.nxt) := by
  obtain ⟨c, hc, rfl⟩ := Option.map_eq_some_iff.mp h
  obtain ⟨h1, h2⟩ := mergeLoop_frame hc
  exact ⟨h1, by rw [h2]⟩

theorem prune_frame (b : RecvBuf α) : b.prune.dup = b.dup ∧ b.prune.recent = b.recent := by
  rw [prune]
  generalize b.ooo.length = n
  induction n generalizing b with
  | zero => exact ⟨rfl, rfl⟩
  | succ n ih =>
    rw [pruneLoop]
    split
    · split
      · exact ⟨rfl, rfl⟩
      · exact ih _
    · exact ⟨rfl, rfl⟩

theorem noteRecent_dup (b : RecvBuf α) (seq : Seq) : (b.noteRecent seq).dup = b.dup := by
  obtain ⟨recent, h⟩ := noteRecent_eq b seq
  rw [h]

theorem noteDup_of_some {block : SackBlock} (h : b.dup = some block) (l r : Seq) : b.noteDup l r = b := by
  simp [noteDup, h]

/-! ## The four paths -/

theorem overlapWith_pos (h : Shape base b) (hr : Reach b) {x : ℕ × OooEntry α} (hx : x ∈ b.ooo)
    (hp : b.nxtOff < p) (hpe : p < e) (he : e < b.nxtOff + 2 ^ 31) :
    overlapWith (pos base p) (pos base e) x.2 =
      if max x.1 p < min (rangeEnd x) e then some (pos base (max x.1 p), pos base (min (rangeEnd x) e))
      else none := by
  have h1 := h.ahead x hx
  have h2 := hr x hx
  have h3 := h.lt_rangeEnd hx
  have hl : (if seqAfter x.2.seq (pos base p) then x.2.seq else pos base p) = pos base (max x.1 p) := by
    rw [(h.placed x hx).seq_eq, seqAfter_pos base ⟨by omega, by omega⟩]
    simp only [decide_eq_true_eq]
    split
    · rw [Nat.max_eq_left (by omega)]
    · rw [Nat.max_eq_right (by omega)]
  have hrt : (if seqBefore x.2.endSeq (pos base e) then x.2.endSeq else pos base e) =
      pos base (min (rangeEnd x) e) := by
    rw [(h.placed x hx).endSeq_eq, seqBefore_pos base ⟨by omega, by omega⟩]
    simp only [decide_eq_true_eq]
    split
    · rw [Nat.min_eq_left (by omega)]
    · rw [Nat.min_eq_right (by omega)]
  simp only [overlapWith, hl, hrt, seqBefore_pos base (a := max x.1 p) (b := min (rangeEnd x) e)
    ⟨by omega, by omega⟩, decide_eq_true_eq]

/-- Bytes in order run into the first range or into none. -/
theorem noteRefill_truthful (h : Shape base b) (hr : Reach b) (hdup : b.dup = none)
    (he : b.nxtOff < e ∧ e < b.nxtOff + 2 ^ 31) :
    Truthful base b b.nxtOff e (b.noteRefill (pos base e)).dup := by
  rw [noteRefill]
  cases hooo : b.ooo with
  | nil =>
    simp only [List.head?_nil, hdup]
    intro o hlo _
    rw [had_iff hlo, hooo]
    simp
  | cons x xs =>
    have hx : x ∈ b.ooo := by simp [hooo]
    have h1 := h.ahead x hx
    have h2 := hr x hx
    have h3 := h.lt_rangeEnd hx
    have hleast : ∀ y ∈ b.ooo, x.1 ≤ y.1 := by
      have hkeys := h.keys_lt
      rw [hooo] at hkeys ⊢
      rintro y (_ | ⟨_, hy⟩)
      · exact le_rfl
      · exact ((List.pairwise_cons.mp hkeys).1 y hy).le
    obtain ⟨hseq, hend⟩ := (⟨(h.placed x hx).seq_eq, (h.placed x hx).endSeq_eq⟩ :
      x.2.seq = pos base x.1 ∧ x.2.endSeq = pos base (rangeEnd x))
    simp only [List.head?_cons, hseq, hend, seqBefore_pos base (a := x.1) (b := e) ⟨by omega, by omega⟩,
      seqBefore_pos base (a := rangeEnd x) (b := e) ⟨by omega, by omega⟩, decide_eq_true_eq]
    split
    · rename_i hin
      have hlow := h.lowest_of_range hx le_rfl (p := b.nxtOff) (e := e) (by omega) fun y hy hyx => by
        have := hleast y hy
        have := h.lt_rangeEnd hy
        omega
      have hr' : (if rangeEnd x < e then pos base (rangeEnd x) else pos base e) =
          pos base (min (rangeEnd x) e) := by
        split
        · rw [Nat.min_eq_left (by omega)]
        · rw [Nat.min_eq_right (by omega)]
      rw [Nat.max_eq_left (by omega)] at hlow
      simp only [hr', noteDup, hdup, Option.isNone_none, Bool.true_and,
        seqBefore_pos base (a := x.1) (b := min (rangeEnd x) e) ⟨by omega, by omega⟩,
        decide_eq_true hlow.within.2.1, if_true]
      exact ⟨_, _, rfl, hlow⟩
    · simp only [hdup]
      intro o hlo hhi
      rw [had_iff hlo]
      rintro ⟨y, hy, hyo, -⟩
      have := hleast y hy
      omega

/-- Past a hole, the first of the ranges met that overlaps the segment gives the stretch. -/
theorem noteOverlap_truthful (h : Shape base b) (hr : Reach b) (hdup : b.dup = none)
    (hp : b.nxtOff < p) (hn : 0 < n)
    (he : p + n < b.nxtOff + 2 ^ 31) :
    Truthful base b p (p + n)
      (b.noteOverlap (pos base p) (pos base (p + n)) ((b.meeting p n).map Prod.snd)).dup := by
  have hval : ∀ x ∈ b.meeting p n, overlapWith (pos base p) (pos base (p + n)) x.2 =
      if max x.1 p < min (rangeEnd x) (p + n) then
        some (pos base (max x.1 p), pos base (min (rangeEnd x) (p + n))) else none :=
    fun x hx => overlapWith_pos h hr (mem_meeting.mp hx).1 hp (by omega) he
  rw [noteOverlap, List.findSome?_map]
  cases hfind : (b.meeting p n).findSome? (overlapWith (pos base p) (pos base (p + n)) ∘ Prod.snd) with
  | none =>
    simp only [hdup]
    intro o hlo hhi
    rw [had_iff (by omega)]
    rintro ⟨x, hx, hxo, hox⟩
    have hmeet : x ∈ b.meeting p n := mem_meeting.mpr ⟨hx, by omega, by omega⟩
    have hnone := List.findSome?_eq_none_iff.mp hfind x hmeet
    rw [Function.comp_apply, hval x hmeet, if_pos (by omega)] at hnone
    simp at hnone
  | some lr =>
    obtain ⟨l1, x, l2, hm, hx, hl1⟩ := List.findSome?_eq_some_iff.mp hfind
    have hxm : x ∈ b.meeting p n := by simp [hm]
    have hxo : x ∈ b.ooo := (mem_meeting.mp hxm).1
    rw [Function.comp_apply, hval x hxm] at hx
    split at hx
    · rename_i hover
      obtain rfl := Option.some.inj hx
      have hlow := h.lowest_of_range hxo hp.le hover fun y hy hyx => by
        by_contra hpast
        have hyl := h.lt_rangeEnd hy
        have hym : y ∈ b.meeting p n := mem_meeting.mpr ⟨hy, by omega, by omega⟩
        have hnone : y ∉ l1 := by
          intro hyl1
          have := hl1 y hyl1
          rw [Function.comp_apply, hval y hym, if_pos (by omega)] at this
          simp at this
        have hsorted := h.apart.filter fun x => decide (p ≤ rangeEnd x ∧ x.1 ≤ p + n)
        rw [show b.ooo.filter _ = b.meeting p n from rfl, hm] at hsorted
        rw [hm, List.mem_append, List.mem_cons] at hym
        rcases hym with hmem | rfl | hmem
        · exact hnone hmem
        · omega
        · have hap : rangeEnd x < y.1 :=
            (List.pairwise_cons.mp (List.pairwise_append.mp hsorted).2.1).1 y hmem
          have := h.lt_rangeEnd hxo
          omega
      have hxr := hr x hxo
      have hxa := h.ahead x hxo
      simp only [noteDup, hdup, Option.isNone_none, Bool.true_and,
        seqBefore_pos base (a := max x.1 p) (b := min (rangeEnd x) (p + n)) ⟨by omega, by omega⟩,
        decide_eq_true hover, if_true]
      exact ⟨_, _, rfl, hlow⟩
    · simp at hx

theorem insertOoo_dup (h : Shape base b) (hp : b.nxtOff < p) (hd : d ≠ [])
    (hend : p + d.length < b.nxtOff + 2 ^ 31) (hi : b.insertOoo (pos base p) d = some b') :
    b'.dup = (b.noteOverlap (pos base p) (pos base (p + d.length)) ((b.meeting p d.length).map Prod.snd)).dup := by
  have hd0 := List.length_pos_of_ne_nil hd
  have hlo : b.off (pos base p) = p := h.off_pos ⟨by omega, by omega⟩
  have hhi : b.off (pos base (p + d.length)) = p + d.length := h.off_pos ⟨by omega, by omega⟩
  have htouch := h.touching_eq (p := p) (n := d.length) ⟨hp, by omega⟩ (by omega) (by omega)
  rw [hhi] at htouch
  simp only [insertOoo, pos_add, hlo, hhi, htouch] at hi
  rw [if_neg (by omega)] at hi
  split at hi
  · rename_i hnil
    obtain rfl := Option.some.inj hi
    rw [List.isEmpty_iff.mp hnil]
    rfl
  · obtain ⟨x, -, rfl⟩ := Option.map_eq_some_iff.mp hi
    simp only [noteOverlap, noteDup]
    split
    · rfl
    · split <;> rfl

theorem place_truthful (h : Shape base b) (hr : Reach b) (hdup : b.dup = none) (hq : b.nxtOff ≤ q) (hd : d ≠ [])
    (hend : q + d.length < b.nxtOff + 2 ^ 31)
    (hi : b.place (pos base q) (pos base (q + d.length)) d = some (b', n)) :
    Truthful base b q (q + d.length) b'.dup := by
  have hd0 := List.length_pos_of_ne_nil hd
  have heq := h.pos_eq_nxt (q := q) ⟨by omega, by omega⟩
  rw [place] at hi
  split at hi
  · rename_i hin
    obtain rfl : q = b.nxtOff := heq.mp hin
    obtain ⟨c, hc, hcb⟩ := Option.map_eq_some_iff.mp hi
    obtain ⟨rfl, -⟩ := Prod.mk.inj hcb
    rw [(mergeOoo_frame hc).1]
    exact noteRefill_truthful h hr hdup ⟨by omega, hend⟩
  · rename_i hout
    have hlt : b.nxtOff < q := lt_of_le_of_ne hq fun he => hout (heq.mpr he.symm)
    obtain ⟨c, hc, hcb⟩ := Option.map_eq_some_iff.mp hi
    obtain ⟨rfl, -⟩ := Prod.mk.inj hcb
    rw [noteRecent_dup, (prune_frame c).1, insertOoo_dup h hlt hd hend hc]
    exact noteOverlap_truthful h hr hdup hlt hd0 hend

/-- What lay before RCV.NXT stays the report whatever the rest runs into. -/
theorem place_dup_of_some {block : SackBlock} {endSeq : Seq} (hdup : b.dup = some block)
    (hi : b.place b.nxt endSeq d = some (b', n)) : b'.dup = some block := by
  rw [place, if_pos rfl] at hi
  obtain ⟨c, hc, hcb⟩ := Option.map_eq_some_iff.mp hi
  obtain ⟨rfl, -⟩ := Prod.mk.inj hcb
  have hrefill : b.noteRefill endSeq = b := by
    rw [noteRefill]
    split
    · rfl
    · split
      · exact noteDup_of_some hdup _ _
      · rfl
  rw [(mergeOoo_frame hc).1]
  simp only [hrefill, hdup]

/-- The offset a segment starts at, where it starts no earlier than the stream. -/
theorem start_eq {p : ℕ} (hp : (p : ℤ) = b.nxtOff + (seq - b.nxt).toInt) :
    p + b.behind seq = b.nxtOff + b.beyond seq ∧ (b.behind seq = 0 ∨ b.beyond seq = 0) := by
  have := beyond_eq b seq
  refine ⟨by omega, ?_⟩
  rw [beyond, behind]
  omega

theorem cutEnd_eq {p : ℕ} (hp : (p : ℤ) = b.nxtOff + (seq - b.nxt).toInt) (hne : b.part seq d ≠ []) :
    b.cutEnd p d = b.nxtOff + b.beyond seq + (b.part seq d).length := by
  obtain ⟨hstart, hsplit⟩ := start_eq hp
  have hpos := List.length_pos_of_ne_nil hne
  rw [length_part] at hpos ⊢
  rw [cutEnd]
  rw [room] at hpos ⊢
  by_cases hbound : 0 < b.windowSize ∨ b.beyond seq ≠ 0
  · rw [if_pos hbound] at hpos ⊢
    by_cases hcut : 0 < b.windowSize ∨ b.nxtOff < p
    · rw [if_pos hcut]
      omega
    · omega
  · rw [if_neg hbound] at hpos ⊢
    rw [if_neg (by omega)]
    omega

theorem stale_eq (h : Shape base b) (hd : d ≠ []) (hstart : p + b.behind seq = b.nxtOff + b.beyond seq)
    (hbeyond : b.beyond seq = 0) (hbehind : b.behind seq ≠ 0) :
    b.stale seq d = some ⟨pos base p, pos base (p + min d.length (b.behind seq))⟩ := by
  have hbefore : (seq - b.nxt).toInt < 0 := by
    rw [behind] at hbehind
    omega
  obtain ⟨-, hnxt⟩ := nxt_eq_of_before hbefore
  have hseq : seq = pos base p := by
    have hsame : seq + BitVec.ofNat 32 (b.behind seq) = pos base p + BitVec.ofNat 32 (b.behind seq) := by
      rw [pos_add, hstart, hbeyond, Nat.add_zero, ← h.nxt_eq]
      exact hnxt.symm
    exact (BitVec.add_left_inj _).mp hsame
  have hne : d.isEmpty = false := by simpa using hd
  rw [stale, if_neg (by simp [hne, hbehind]), ← pos_add, ← hseq]

theorem stale_lowest (h : Shape base b) (hd : d ≠ []) (hstart : p + b.behind seq = b.nxtOff + b.beyond seq)
    (hbeyond : b.beyond seq = 0) (hbehind : b.behind seq ≠ 0) :
    b.Lowest p (b.cutEnd p d) p (p + min d.length (b.behind seq)) := by
  have hpos := List.length_pos_of_ne_nil hd
  have hcut : min (p + d.length) b.nxtOff ≤ b.cutEnd p d ∧ (p + d.length ≤ b.nxtOff → b.cutEnd p d =
    p + d.length) := by
    rw [cutEnd]
    split <;> omega
  refine ⟨⟨le_rfl, by omega, by omega⟩, fun o hlo hhi => .inl (by omega), fun o hlo hhi => by omega, ?_⟩
  by_cases hlen : d.length ≤ b.behind seq
  · left
    rw [hcut.2 (by omega), Nat.min_eq_left hlen]
  · right
    rw [Nat.min_eq_right (by omega), show p + b.behind seq = b.nxtOff by omega]
    exact h.not_had_nxtOff

/-- After an insert the report is the lowest stretch of the segment, up to the window's edge, that was
there before. -/
theorem insert_truthful {p : ℕ} (h : Shape base b) (hin : Inside b) (hws : b.windowSize < 2 ^ 31)
    (hown : b.OwnEdge) (hfit : (seq - b.nxt).toInt + d.length < 2 ^ 31)
    (hp : (p : ℤ) = b.nxtOff + (seq - b.nxt).toInt) (hi : b.insert seq d = some (b', n)) :
    Truthful base b p (b.cutEnd p d) b'.dup := by
  have hwin := window_lt hws
  obtain ⟨hstart, hsplit⟩ := start_eq hp
  have hr : Reach b := fun x hx => by
    have := hin x hx
    omega
  rw [insert_eq_insertVia, insertVia_eq _ h hown hwin hfit] at hi
  by_cases hbehind : b.behind seq = 0
  · -- nothing lies before RCV.NXT
    have hstale : b.stale seq d = none := by simp [stale, hbehind]
    rw [hstale] at hi
    by_cases hnil : b.part seq d = []
    · simp only [hnil, List.isEmpty_nil, if_true, Option.some.injEq, Prod.mk.injEq] at hi
      obtain ⟨rfl, -⟩ := hi
      intro o hlo hhi
      exfalso
      have hlen := congrArg List.length hnil
      rw [length_part, List.length_nil, room] at hlen
      rw [cutEnd] at hhi
      by_cases hbound : 0 < b.windowSize ∨ b.beyond seq ≠ 0
      · rw [if_pos hbound] at hlen
        rw [if_pos (by omega)] at hhi
        omega
      · rw [if_neg hbound] at hlen
        rw [if_neg (by omega)] at hhi
        omega
    · have hreach := part_reach hfit hnil
      rw [if_neg (by simpa using hnil)] at hi
      have hplace := place_truthful (h.change_dup none) hr rfl (Nat.le_add_right _ _) hnil
        (by simp only; omega) hi
      rw [cutEnd_eq hp hnil, show p = b.nxtOff + b.beyond seq by omega]
      exact hplace.change_dup
  · have hbeyond : b.beyond seq = 0 := by omega
    by_cases hd : d = []
    · simp only [hd, part, List.drop_nil, List.take_nil, List.isEmpty_nil, if_true, Option.some.injEq,
        Prod.mk.injEq] at hi
      obtain ⟨rfl, -⟩ := hi
      simp only [stale, List.isEmpty_nil, true_or, if_true]
      intro o hlo hhi
      simp only [hd, cutEnd, List.length_nil, Nat.add_zero] at hhi
      split at hhi <;> omega
    · have hlow := stale_lowest h hd hstart hbeyond
      have hdup : b'.dup = b.stale seq d := by
        by_cases hnil : b.part seq d = []
        · simp only [hnil, List.isEmpty_nil, if_true, Option.some.injEq, Prod.mk.injEq] at hi
          obtain ⟨rfl, -⟩ := hi
          rfl
        · rw [if_neg (by simpa using hnil), hbeyond, Nat.add_zero, ← h.nxt_eq] at hi
          rw [stale_eq h hd hstart hbeyond hbehind] at hi ⊢
          exact place_dup_of_some rfl hi
      rw [hdup, stale_eq h hd hstart hbeyond hbehind]
      exact ⟨_, _, rfl, hlow hbehind⟩

end RecvBuf

end PktKit.Vtcp
