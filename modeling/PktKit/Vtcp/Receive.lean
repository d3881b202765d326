import PktKit.Vtcp.Reassembly

/-! # The shape of the receive buffer, and a segment filed past a hole

`Shape` is the well-formedness of a receive buffer: its ranges lie in order, apart
and ahead of RCV.NXT, and their memory is accounted for. Filing a segment past a
hole keeps it.
-/

namespace PktKit.Vtcp
open Foundations.Wrapping Foundations.Fragments Foundations.Ranges

namespace RecvBuf

variable {α : Type*} {base : Seq} {b b' : RecvBuf α} {d : List α} {p : ℕ}

/-- The buffer is well-formed, position 0 of its stream having sequence number `base`. -/
structure Shape (base : Seq) (b : RecvBuf α) : Prop where
  nxt_eq : b.nxt = pos base b.nxtOff
  apart : b.ooo.Pairwise Apart
  placed : ∀ x ∈ b.ooo, WellPlaced base x
  ahead : ∀ x ∈ b.ooo, b.nxtOff < x.1 ∧ x.1 < b.nxtOff + 2 ^ 31
  mem_eq : b.oooMem = (b.ooo.map fun x => x.2.cost).sum

/-- No range is as long as half the sequence space. -/
def Short (b : RecvBuf α) : Prop := ∀ x ∈ b.ooo, x.2.data.length < 2 ^ 31

/-- Every range holds what the stream `W` holds there. -/
def OooAgrees (W : List α) (b : RecvBuf α) : Prop := ∀ x ∈ b.ooo, Frag W x.1 x.2.data

/-- Every range holds what `f` holds there. -/
def OooReads (f : ℕ → Option α) (b : RecvBuf α) : Prop := ∀ x ∈ b.ooo, Reads f x.1 x.2.data

def Fills (f : ℕ → Option α) (p : ℕ) (d : List α) (b : RecvBuf α) : Prop :=
  ∀ o, p ≤ o → o < p + d.length → Free b.ooo o → f o = d[o - p]?

theorem oooAgrees_iff {W : List α} : OooAgrees W b ↔ OooReads (fun o => W[o]?) b :=
  forall₂_congr fun _ _ => frag_iff_reads

theorem fills_of_frag {W : List α} (h : Frag W p d) : Fills (fun o => W[o]?) p d b := by
  intro o hpo hop _
  have hread := frag_iff_reads.mp h (o - p) (by omega)
  rw [Nat.add_sub_cancel' hpo] at hread
  exact hread.symm

theorem shape_new (base : Seq) (windowSize : ℕ) : Shape base (new base windowSize : RecvBuf α) := by
  constructor <;> simp [new]

def before (b : RecvBuf α) (p : ℕ) : List (ℕ × OooEntry α) := b.ooo.filter fun x => rangeEnd x < p

def meeting (b : RecvBuf α) (p n : ℕ) : List (ℕ × OooEntry α) :=
  b.ooo.filter fun x => p ≤ rangeEnd x ∧ x.1 ≤ p + n

def after (b : RecvBuf α) (p n : ℕ) : List (ℕ × OooEntry α) := b.ooo.filter fun x => p + n < x.1

theorem mem_before {x : ℕ × OooEntry α} : x ∈ b.before p ↔ x ∈ b.ooo ∧ rangeEnd x < p := by
  simp [before]

theorem mem_meeting {x : ℕ × OooEntry α} {n : ℕ} :
    x ∈ b.meeting p n ↔ x ∈ b.ooo ∧ p ≤ rangeEnd x ∧ x.1 ≤ p + n := by
  simp [meeting]

theorem mem_after {x : ℕ × OooEntry α} {n : ℕ} : x ∈ b.after p n ↔ x ∈ b.ooo ∧ p + n < x.1 := by
  simp [after]

/-- Where no range that meets the segment lies, none lies. -/
theorem free_of_meeting {n o : ℕ} (hpo : p ≤ o) (hop : o < p + n) (h : Free (b.meeting p n) o) :
    Free b.ooo o := by
  intro x hx
  by_cases hm : p ≤ rangeEnd x ∧ x.1 ≤ p + n
  · exact h x (mem_meeting.mpr ⟨hx, hm⟩)
  · omega

theorem Fills.reads {f : ℕ → Option α} (h : Fills f p d b) (hm : ∀ o, Free (b.meeting p d.length) o) :
    Reads f p d := by
  intro i hi
  rw [h (p + i) (by omega) (by omega) (free_of_meeting (by omega) (by omega) (hm _)), Nat.add_sub_cancel_left]

namespace Shape

theorem off_pos (h : Shape base b) {q : ℕ} (hq : Near q b.nxtOff) : b.off (pos base q) = q := by
  rw [off, h.nxt_eq, toInt_pos_sub_of_near base hq]
  simp only [add_sub_cancel]
  rw [if_neg (by omega), Int.toNat_natCast]

theorem lt_rangeEnd (h : Shape base b) {x : ℕ × OooEntry α} (hx : x ∈ b.ooo) : x.1 < rangeEnd x :=
  (h.placed x hx).lt_rangeEnd

theorem pos_eq_nxt (h : Shape base b) {q : ℕ} (hq : Near q b.nxtOff) : pos base q = b.nxt ↔ q = b.nxtOff := by
  rw [h.nxt_eq]
  exact pos_inj_of_near base hq

/-- Two different ranges lie apart, one way or the other. -/
theorem trichotomy (h : Shape base b) {x y : ℕ × OooEntry α} (hx : x ∈ b.ooo) (hy : y ∈ b.ooo) :
    x = y ∨ (x.1 < rangeEnd x ∧ rangeEnd x < y.1 ∧ y.1 < rangeEnd y) ∨
      y.1 < rangeEnd y ∧ rangeEnd y < x.1 ∧ x.1 < rangeEnd x := by
  have hsym : b.ooo.Pairwise fun x y => Apart x y ∨ Apart y x := h.apart.imp Or.inl
  have : Std.Symm fun x y : ℕ × OooEntry α => Apart x y ∨ Apart y x := ⟨fun _ _ => Or.symm⟩
  have hxe := h.lt_rangeEnd hx
  have hye := h.lt_rangeEnd hy
  by_cases hxy : x = y
  · exact .inl hxy
  · rcases hsym.forall hx hy hxy with hap | hap
    · exact .inr (.inl ⟨hxe, hap, hye⟩)
    · exact .inr (.inr ⟨hye, hap, hxe⟩)

theorem range_unique (h : Shape base b) {x y : ℕ × OooEntry α} {o : ℕ} (hx : x ∈ b.ooo) (hy : y ∈ b.ooo)
    (hox : x.1 ≤ o ∧ o < rangeEnd x) (hoy : y.1 ≤ o ∧ o < rangeEnd y) : x = y := by
  rcases h.trichotomy hx hy with heq | hap | hap
  · exact heq
  · omega
  · omega

/-- Some of the ranges, accounted for, are in shape. -/
theorem sublist (h : Shape base b) (hnxt : b'.nxt = b.nxt) (hoff : b'.nxtOff = b.nxtOff) (hsub : b'.ooo.Sublist b.ooo)
    (hmem : b'.oooMem = (b'.ooo.map fun x => x.2.cost).sum) : Shape base b' where
  nxt_eq := by rw [hnxt, hoff, h.nxt_eq]
  apart := h.apart.sublist hsub
  placed x hx := h.placed x (hsub.subset hx)
  ahead x hx := hoff ▸ h.ahead x (hsub.subset hx)
  mem_eq := hmem

theorem keys_lt (h : Shape base b) : b.ooo.Pairwise fun x y => x.1 < y.1 :=
  h.apart.imp_of_mem fun hx _ hxy => lt_trans (h.lt_rangeEnd hx) hxy

theorem ends_lt (h : Shape base b) : b.ooo.Pairwise fun x y => rangeEnd x < rangeEnd y :=
  h.apart.imp_of_mem fun _ hy hxy => lt_trans hxy (h.lt_rangeEnd hy)

theorem ooo_eq (h : Shape base b) (p n : ℕ) :
    b.ooo = b.before p ++ b.meeting p n ++ b.after p n := by
  have h1 := filter_append_filter_not (fun x => decide (rangeEnd x < p)) h.ends_lt (by simp; omega)
  have h2 := filter_append_filter_not (fun x => decide (x.1 ≤ p + n))
    (h.keys_lt.filter fun x => !decide (rangeEnd x < p)) (by simp; omega)
  rw [← h1, List.append_assoc, ← h2, List.filter_filter, List.filter_filter]
  congr 2
  all_goals
    refine List.filter_congr fun x hx => ?_
    have := h.lt_rangeEnd hx
    rw [Bool.eq_iff_iff]
    simp
    omega

/-- The source's two range queries find exactly the ranges that meet the segment. Where the end
wraps below offset 0 it lies past every range, as the end itself does. -/
theorem touching_eq (h : Shape base b) {n : ℕ} (hp : b.nxtOff < p ∧ p < b.nxtOff + 2 ^ 31)
    (hn : n < 2 ^ 31) (hhi : p + 1 ≤ b.off (pos base (p + n))) :
    b.touching p (b.off (pos base (p + n))) = b.meeting p n := by
  have hlow : (b.ooo.filter fun x => x.1 ≤ p).filter (fun x => p ≤ x.1 + x.2.data.length) =
      (b.ooo.filter fun x => x.1 ≤ p).getLast?.toList.filter
        fun x => p ≤ x.1 + x.2.data.length := by
    refine filter_eq_getLast? _ (h.apart.filter _) ?_
    intro x y hy hxy
    have hy' : y.1 ≤ p := by simpa using (List.mem_filter.mp hy).2
    have : x.1 + x.2.data.length < y.1 := hxy
    simp
    omega
  have hhigh : (b.ooo.filter fun x => p + 1 ≤ x.1 && x.1 ≤ b.off (pos base (p + n))) =
      b.ooo.filter fun x => p + 1 ≤ x.1 && x.1 ≤ p + n := by
    refine List.filter_congr fun x hx => ?_
    have hx' := h.ahead x hx
    by_cases hnear : p + n < b.nxtOff + 2 ^ 31
    · rw [h.off_pos ⟨hnear, by omega⟩]
    · have hto : (pos base (p + n) - b.nxt).toInt = ((p + n : ℕ) : ℤ) - b.nxtOff - 2 ^ 32 := by
        rw [toInt_sub_eq, h.nxt_eq, toNat_pos_sub base (by omega) (by omega)]
        split_ifs <;> omega
      simp only [off, hto] at hhi ⊢
      split_ifs at hhi ⊢ with hneg
      · rw [Bool.eq_iff_iff]
        simp only [Bool.and_eq_true, decide_eq_true_eq]
        omega
      · omega
  have hsplit := filter_append_filter_not (fun x => decide (x.1 ≤ p))
    (h.keys_lt.filter fun x => decide (p ≤ rangeEnd x ∧ x.1 ≤ p + n)) (by simp; omega)
  rw [touching, ← hlow, hhigh, meeting, ← hsplit, List.filter_filter, List.filter_filter,
    List.filter_filter]
  congr 1
  · refine List.filter_congr fun x _ => ?_
    rw [Bool.eq_iff_iff]
    simp only [Bool.and_eq_true, decide_eq_true_eq]
    rw [rangeEnd]
    omega
  · refine List.filter_congr fun x hx => ?_
    have := h.lt_rangeEnd hx
    rw [Bool.eq_iff_iff]
    simp
    omega

/-- Taking the ranges found out by their keys leaves those before and after. -/
theorem filter_keys (h : Shape base b) (p n : ℕ) :
    (b.ooo.filter fun x => !((b.meeting p n).map Prod.fst).contains x.1) =
      b.before p ++ b.after p n := by
  have hout : ∀ x ∈ b.ooo, (!((b.meeting p n).map Prod.fst).contains x.1) =
      !decide (p ≤ rangeEnd x ∧ x.1 ≤ p + n) := by
    intro x hx
    rw [Bool.not_inj_iff, Bool.eq_iff_iff, List.contains_iff_mem, decide_eq_true_iff, List.mem_map]
    refine ⟨?_, fun hm => ⟨x, mem_meeting.mpr ⟨hx, hm⟩, rfl⟩⟩
    rintro ⟨y, hy, hyx⟩
    obtain ⟨hyo, hym⟩ := mem_meeting.mp hy
    rcases h.trichotomy hx hyo with rfl | hap | hap
    · exact hym
    · omega
    · omega
  rw [List.filter_congr hout]
  have hcut := filter_append_filter_not (fun x => decide (rangeEnd x < p))
    (h.ends_lt.filter fun x => !decide (p ≤ rangeEnd x ∧ x.1 ≤ p + n)) (by simp; omega)
  rw [← hcut, List.filter_filter, List.filter_filter]
  congr 1
  all_goals
    refine List.filter_congr fun x hx => ?_
    have := h.lt_rangeEnd hx
    rw [Bool.eq_iff_iff]
    simp
    omega

theorem before_lt_firstStart (h : Shape base b) {n : ℕ} {x : ℕ × OooEntry α} (hx : x ∈ b.before p) :
    rangeEnd x < firstStart p (b.meeting p n) := by
  obtain ⟨hxo, hxp⟩ := mem_before.mp hx
  refine lt_firstStart hxp fun y hy => ?_
  obtain ⟨hyo, hyp, -⟩ := mem_meeting.mp hy
  rcases h.trichotomy hxo hyo with rfl | hap | hap <;> omega

theorem putRange_eq (h : Shape base b) (p n : ℕ) (e : OooEntry α) :
    putRange (firstStart p (b.meeting p n)) e (b.before p ++ b.after p n) =
      b.before p ++ (firstStart p (b.meeting p n), e) :: b.after p n := by
  have hlow : ∀ x ∈ b.before p, x.1 < firstStart p (b.meeting p n) := fun x hx =>
    (h.lt_rangeEnd (mem_before.mp hx).1).trans (h.before_lt_firstStart hx)
  have hhigh : ∀ x ∈ b.after p n, firstStart p (b.meeting p n) < x.1 := by
    intro x hx
    have h1 := (mem_after.mp hx).2
    have h2 := firstStart_le p (b.meeting p n)
    omega
  rw [putRange, List.filter_append, List.filter_append,
    List.filter_eq_self.mpr (by simpa using hlow),
    List.filter_eq_nil_iff.mpr (by simpa using fun x y hx => (hhigh (x, y) hx).le),
    List.filter_eq_nil_iff.mpr (by simpa using fun x y hx => (hlow (x, y) hx).le),
    List.filter_eq_self.mpr (by simpa using hhigh)]
  simp

end Shape

/-- A segment past a hole absorbs the ranges it meets, or one of them the rest. -/
theorem absorb_meeting (h : Shape base b) (hsh : Short b) (hp : b.nxtOff < p ∧ p < b.nxtOff + 2 ^ 31)
    (hL : d.length < 2 ^ 31) (hm : b.meeting p d.length ≠ []) :
    ∃ e, absorb (pos base p) d ((b.meeting p d.length).map Prod.snd) = some e ∧
      e.seq = pos base (firstStart p (b.meeting p d.length)) ∧
      firstStart p (b.meeting p d.length) + e.data.length =
        max (p + d.length) (lastEnd p (b.meeting p d.length)) ∧
      ∀ f, Fills f p d b → OooReads f b → Reads f (firstStart p (b.meeting p d.length)) e.data := by
  have hmo : ∀ x ∈ b.meeting p d.length, x ∈ b.ooo := fun x hx => (mem_meeting.mp hx).1
  have hkey := fun x hx => h.ahead x (hmo x hx)
  have hw := fun x hx => h.placed x (hmo x hx)
  have hap : (b.meeting p d.length).Pairwise Apart := h.apart.filter _
  have hlen := fun x hx => hsh x (hmo x hx)
  have hend : ∀ x ∈ b.meeting p d.length, p ≤ rangeEnd x := fun x hx => (mem_meeting.mp hx).2.1
  have hin : ∀ x ∈ b.meeting p d.length, x.1 ≤ p + d.length := fun x hx => (mem_meeting.mp hx).2.2
  have hfree : ∀ {f}, Fills f p d b → ∀ o, p ≤ o → o < p + d.length → Free (b.meeting p d.length) o →
    f o = d[o - p]? := fun hf o hpo hop hm => hf o hpo hop (free_of_meeting hpo hop hm)
  generalize b.meeting p d.length = xs at *
  -- the range that absorbs the rest, and those on either side of it
  have hk : lastLongest (xs.map Prod.snd) < xs.length := by
    have hmap : xs.map Prod.snd ≠ [] := by simpa using hm
    simpa using lastLongest_lt hmap
  obtain ⟨pre, r, post, rfl, hpre⟩ : ∃ pre r post, xs = pre ++ r :: post ∧
      pre.length = lastLongest (xs.map Prod.snd) :=
    ⟨xs.take _, xs[lastLongest (xs.map Prod.snd)], xs.drop _,
      by rw [← List.drop_eq_getElem_cons hk, List.take_append_drop], List.length_take_of_le hk.le⟩
  have hmb : r ∈ pre ++ r :: post := by simp
  have hb := hkey r hmb
  have hbend := (hw r hmb).lt_rangeEnd
  set s := firstStart p (pre ++ r :: post) with hs
  -- the cursor starts at the first byte of the whole
  have hcursor : frontStart (pos base p) r.2 (pre.map Prod.snd) = pos base s := by
    rw [frontStart, (hw r hmb).seq_eq, seqBefore_pos base ⟨by omega, by omega⟩]
    cases pre with
    | nil =>
      rcases Nat.lt_or_ge p r.1 with h | h
      · simp [h, hs, firstStart, h.le]
      · simp [h, hs, firstStart]
    | cons x pre =>
      have hx := hkey x (by simp)
      have hxb : rangeEnd x < r.1 := (List.pairwise_append.mp hap).2.2 x (by simp) r (by simp)
      have hxe := hend x (by simp)
      have hpb' : p < r.1 := by omega
      simp only [List.map_cons, List.head?_cons, hpb', decide_true, if_true]
      rw [(hw x (by simp)).seq_eq, seqBefore_pos base ⟨by omega, by omega⟩]
      rcases Nat.lt_or_ge p x.1 with h | h
      · simp [h, hs, firstStart, h.le]
      · simp [h, hs, firstStart]
  obtain ⟨whole, hwhole, hwlen, hwreads⟩ := gather_pos base (N := b.nxtOff) (c := s) hL hap hw hkey hend hin
    (lt_firstStart hp.1 fun x hx => (hkey x hx).1) (firstStart_le_key hap hw p) (by
      cases pre with
      | nil =>
        simp only [List.nil_append, List.head?_cons, Option.some.injEq, forall_eq', hs, firstStart]
        omega
      | cons x pre =>
        simp only [List.cons_append, List.head?_cons, Option.some.injEq, forall_eq', hs, firstStart]
        omega)
  have hl : ∀ c, lastEnd c (pre ++ r :: post) = lastEnd (rangeEnd r) post := fun c => lastEnd_append_cons c _ _ _
  have hc : p ≤ lastEnd s (pre ++ r :: post) ∧ lastEnd s (pre ++ r :: post) < p + d.length + 2 ^ 31 := by
    rcases lastEnd_cases s (pre ++ r :: post) with ⟨hnil, -⟩ | ⟨x, hx, he⟩
    · exact absurd hnil hm
    · have h1 := hin x hx
      have h2 := hlen x hx
      exact ⟨he ▸ hend x hx, by rw [he, rangeEnd]; omega⟩
  obtain ⟨last, hlast, hllen, hlreads⟩ := gapTo_pos base (p := p) (b := p + d.length) (d := d)
    ⟨by omega, by omega⟩ hL fun _ => ⟨hc.1, le_rfl⟩
  refine ⟨{ seq := pos base s, data := whole ++ last }, ?_, rfl, ?_, fun f hf hread => Reads.append ?_ ?_⟩
  · have hget : ((pre ++ r :: post).map Prod.snd)[pre.length]? = some r.2 := by simp
    simp only [List.map_append, List.map_cons, gather_append_cons, Option.bind_eq_some_iff,
      Option.map_eq_some_iff, Prod.mk.injEq] at hwhole
    obtain ⟨front, hfront, gap, hgap, back, hback, rfl, hcur⟩ := hwhole
    rw [absorb, ← hpre, hget]
    simp only [partition_eraseIdx hap hw hkey, hcursor, hfront, hgap, hback, hcur, pos_add, hlast,
      Option.bind_some, Option.map_some]
  · rw [List.length_append, ← Nat.add_assoc, hwlen, hl, hl] at *
    omega
  · exact hwreads f (fun o _ _ hpo hop hfr => hfree hf o hpo hop hfr) fun x hx => hread x (hmo x hx)
  · rw [hwlen]
    refine hlreads f fun o hlo hop => hfree hf o (hc.1.trans hlo) hop fun x hx => .inr ?_
    exact (le_lastEnd hap hw s x hx).trans hlo

/-- What all ranges have, and the one filed between them, all have then. -/
theorem forall_filed {P : ℕ × OooEntry α → Prop} {k n : ℕ} {e : OooEntry α} (hold : ∀ x ∈ b.ooo, P x)
    (hnew : P (k, e)) : ∀ x ∈ b.before p ++ (k, e) :: b.after p n, P x := by
  simp only [List.mem_append, List.mem_cons]
  rintro x (hx | rfl | hx)
  · exact hold x (mem_before.mp hx).1
  · exact hnew
  · exact hold x (mem_after.mp hx).1

theorem noteDup_eq (b : RecvBuf α) (l r : Seq) : ∃ dup, b.noteDup l r = { b with dup := dup } := by
  rw [noteDup]
  split
  · exact ⟨_, rfl⟩
  · exact ⟨b.dup, rfl⟩

theorem noteOverlap_eq (b : RecvBuf α) (l r : Seq) (es : List (OooEntry α)) :
    ∃ dup, b.noteOverlap l r es = { b with dup := dup } := by
  rw [noteOverlap]
  split
  · exact ⟨b.dup, rfl⟩
  · exact noteDup_eq b _ _

theorem noteRefill_eq (b : RecvBuf α) (r : Seq) : ∃ dup, b.noteRefill r = { b with dup := dup } := by
  rw [noteRefill]
  split
  · exact ⟨b.dup, rfl⟩
  · split
    · exact noteDup_eq b _ _
    · exact ⟨b.dup, rfl⟩

/-- Inserting a segment past a hole merges it with the ranges it meets into one range, and
leaves the others alone. -/
theorem insertOoo_spec (h : Shape base b) (hsh : Short b)
    (hp : b.nxtOff < p ∧ p < b.nxtOff + 2 ^ 31) (hL : d.length < 2 ^ 31)
    (hi : b.insertOoo (pos base p) d = some b') :
    let m := b.meeting p d.length
    ∃ e dup, b' = { b with
        ooo := b.before p ++ (firstStart p m, e) :: b.after p d.length
        oooMem := b.oooMem - (m.map fun x => x.2.cost).sum + e.cost
        dup := dup } ∧
      e.seq = pos base (firstStart p m) ∧
      firstStart p m + e.data.length = max (p + d.length) (lastEnd p m) ∧
      ∀ f, Fills f p d b → OooReads f b → Reads f (firstStart p m) e.data := by
  intro m
  have hlo : b.off (pos base p) = p := h.off_pos ⟨by omega, by omega⟩
  simp only [insertOoo, pos_add, hlo] at hi
  split at hi
  · simp at hi
  · rename_i hhi
    rw [h.touching_eq hp hL (by omega)] at hi
    by_cases hm : m = []
    · have hput := h.putRange_eq p d.length { seq := pos base p, data := d }
      have hooo := h.filter_keys p d.length
      rw [show b.meeting p d.length = [] from hm] at hi hput hooo
      have hself : b.before p ++ b.after p d.length = b.ooo := by simpa using hooo.symm
      rw [hself, firstStart] at hput
      simp only [List.isEmpty_nil, if_true, Option.some.injEq] at hi
      rw [hput] at hi
      refine ⟨{ seq := pos base p, data := d }, b.dup, ?_, ?_, ?_, fun f hf _ => ?_⟩
      · rw [← hi, hm]
        rfl
      · rw [hm]
        rfl
      · rw [hm]
        simp [firstStart, lastEnd]
      · rw [hm]
        refine hf.reads fun o x hx => ?_
        rw [show b.meeting p d.length = [] from hm] at hx
        exact absurd hx List.not_mem_nil
    · obtain ⟨e, (habs : absorb _ d (m.map Prod.snd) = _), hseq, hend, hfrag⟩ := absorb_meeting h hsh hp hL hm
      have hem : m.isEmpty = false := by simpa using hm
      have hs1 : b.nxtOff < firstStart p m := lt_firstStart hp.1 fun x hx =>
        (h.ahead x (mem_meeting.mp hx).1).1
      have hs2 := firstStart_le p m
      have hoff : b.off (pos base (firstStart p m)) = firstStart p m :=
        h.off_pos ⟨by omega, by omega⟩
      simp only [show b.meeting p d.length = m from rfl, hem, Bool.false_eq_true, if_false, habs,
        Option.map_some, Option.some.injEq] at hi
      obtain ⟨dup, hdup⟩ := noteOverlap_eq { b with
        ooo := b.ooo.filter fun x => !(m.map Prod.fst).contains x.1
        oooMem := b.oooMem - ((m.map Prod.snd).map OooEntry.cost).sum }
        (pos base p) (pos base (p + d.length)) (m.map Prod.snd)
      rw [hdup] at hi
      refine ⟨e, dup, ?_, hseq, hend, hfrag⟩
      rw [← hi, hseq]
      have hkeys := h.filter_keys p d.length
      have hput := h.putRange_eq p d.length e
      simp only [off] at hoff ⊢
      rw [hoff, hkeys, hput, List.map_map]
      rfl

/-- The ranges hold what they held, and the segment's bytes only where none did. -/
theorem insertOoo_reads (h : Shape base b) (hsh : Short b)
    (hp : b.nxtOff < p ∧ p < b.nxtOff + 2 ^ 31) (hL : d.length < 2 ^ 31)
    (hi : b.insertOoo (pos base p) d = some b') {f : ℕ → Option α} (hf : Fills f p d b) (hread : OooReads f b) :
    OooReads f b' := by
  obtain ⟨e, dup, rfl, -, -, hmerged⟩ := insertOoo_spec h hsh hp hL hi
  exact forall_filed hread (hmerged f hf hread)

/-- What filing a segment past a hole did: only the ranges changed, still in shape, and they hold
nothing but what the segment and the ranges held. -/
structure Filed (base : Seq) (p : ℕ) (d : List α) (b b' : RecvBuf α) : Prop where
  frame : ∃ ooo mem recent dup,
    b' = { b with ooo := ooo, oooMem := mem, recent := recent, dup := dup }
  shape : Shape base b'
  bound : ∀ E, p + d.length ≤ E → (∀ x ∈ b.ooo, rangeEnd x ≤ E) → ∀ x ∈ b'.ooo, rangeEnd x ≤ E
  agrees : ∀ W, Frag W p d → OooAgrees W b → OooAgrees W b'

theorem insertOoo_filed (h : Shape base b) (hsh : Short b)
    (hp : b.nxtOff < p ∧ p < b.nxtOff + 2 ^ 31) (hd : d ≠ []) (hL : d.length < 2 ^ 31)
    (hi : b.insertOoo (pos base p) d = some b') : Filed base p d b b' := by
  obtain ⟨e, dup, rfl, hseq, hend, hfrag⟩ := insertOoo_spec h hsh hp hL hi
  have hd0 := List.length_pos_of_ne_nil hd
  set m := b.meeting p d.length with hm
  set s := firstStart p m with hs
  have hs1 : b.nxtOff < s :=
    lt_firstStart hp.1 fun x hx => (h.ahead x (mem_meeting.mp hx).1).1
  have hs2 : s ≤ p := firstStart_le p m
  have hpast : ∀ x ∈ b.after p d.length, s + e.data.length < x.1 := by
    intro x hx
    obtain ⟨hxo, hxp⟩ := mem_after.mp hx
    rcases lastEnd_cases p m with ⟨-, he⟩ | ⟨y, hy, he⟩
    · omega
    · obtain ⟨hyo, -, hyp⟩ := mem_meeting.mp hy
      have hyl := h.lt_rangeEnd hyo
      rcases h.trichotomy hyo hxo with rfl | hap | hap <;> omega
  refine ⟨⟨_, _, _, _, rfl⟩, ⟨h.nxt_eq, ?_, ?_, ?_, ?_⟩, ?_, ?_⟩
  · refine List.pairwise_append.mpr ⟨h.apart.filter _,
      List.pairwise_cons.mpr ⟨hpast, h.apart.filter _⟩, fun x hx y hy => ?_⟩
    rcases List.mem_cons.mp hy with rfl | hy
    · exact h.before_lt_firstStart hx
    · have h1 := (mem_before.mp hx).2
      have h2 := (mem_after.mp hy).2
      change rangeEnd x < y.1
      omega
  · refine forall_filed h.placed ⟨hseq, List.ne_nil_of_length_pos ?_⟩
    change 0 < e.data.length
    omega
  · exact forall_filed h.ahead ⟨hs1, by change s < b.nxtOff + _; omega⟩
  · have hmem := h.mem_eq
    rw [h.ooo_eq p d.length, ← hm] at hmem
    simp only [List.map_append, List.sum_append, List.map_cons, List.sum_cons] at hmem ⊢
    omega
  · intro E hE hb
    refine forall_filed hb ?_
    rw [rangeEnd, hend]
    refine max_le hE ?_
    rcases lastEnd_cases p m with ⟨-, he⟩ | ⟨y, hy, he⟩
    · omega
    · rw [he]
      exact hb y (mem_meeting.mp hy).1
  · intro W hW hag
    rw [oooAgrees_iff] at hag ⊢
    exact insertOoo_reads h hsh hp hL hi (fills_of_frag hW) hag

/-- Pruning gives up ranges from the far end. -/
theorem pruneLoop_eq (n : ℕ) (h : Shape base b) :
    ∃ ooo mem, pruneLoop n b = { b with ooo := ooo, oooMem := mem } ∧ ooo <+: b.ooo ∧
      mem = (ooo.map fun x => x.2.cost).sum ∧ (b.ooo.length ≤ n → mem ≤ b.oooBudget) := by
  induction n generalizing b with
  | zero =>
    refine ⟨b.ooo, b.oooMem, rfl, List.prefix_rfl, h.mem_eq, fun hn => ?_⟩
    have : b.ooo = [] := by simpa using hn
    rw [h.mem_eq, this]
    simp
  | succ n ih =>
    rw [pruneLoop]
    split
    · rename_i hover
      split
      · rename_i hnone
        have : b.ooo = [] := by simpa using hnone
        have hmem := h.mem_eq
        rw [this] at hmem
        simp at hmem
        omega
      · rename_i x hx
        obtain ⟨init, hinit⟩ := List.getLast?_eq_some_iff.mp hx
        have hdrop : b.ooo.dropLast = init := by rw [hinit, List.dropLast_concat]
        have hmem := h.mem_eq
        rw [hinit] at hmem
        simp only [List.map_append, List.sum_append, List.map_cons, List.map_nil, List.sum_cons,
          List.sum_nil] at hmem
        have hsub : init <+: b.ooo := by rw [hinit]; exact List.prefix_append _ _
        have hshape : Shape base { b with ooo := b.ooo.dropLast, oooMem := b.oooMem - x.2.cost } := by
          rw [hdrop]
          refine h.sublist rfl rfl hsub.sublist ?_
          change b.oooMem - x.2.cost = (init.map fun x => x.2.cost).sum
          omega
        obtain ⟨ooo, mem, heq, hpre, hsum, hbud⟩ := ih hshape
        refine ⟨ooo, mem, heq, ?_, hsum, fun hn => hbud ?_⟩
        · exact hpre.trans (by rw [hdrop]; exact hsub)
        · simp only [List.length_dropLast]
          omega
    · exact ⟨b.ooo, b.oooMem, rfl, List.prefix_rfl, h.mem_eq, fun _ => by omega⟩

theorem noteRecent_eq (b : RecvBuf α) (seq : Seq) :
    ∃ recent, b.noteRecent seq = { b with recent := recent } := by
  rw [noteRecent]
  split
  · exact ⟨b.recent, rfl⟩
  · exact ⟨_, rfl⟩

/-- What pruning leaves is a front of the ranges, within the budget. -/
theorem prune_noteRecent_eq (h : Shape base b) (seq : Seq) :
    ∃ ooo mem recent, b.prune.noteRecent seq = { b with ooo := ooo, oooMem := mem, recent := recent } ∧
      ooo <+: b.ooo ∧ mem = (ooo.map fun x => x.2.cost).sum ∧ mem ≤ b.oooBudget := by
  obtain ⟨ooo, mem, hpr, hpre, hsum, hbud⟩ := pruneLoop_eq b.ooo.length h
  obtain ⟨recent, hrec⟩ := noteRecent_eq b.prune seq
  exact ⟨ooo, mem, recent, by rw [hrec, prune, hpr], hpre, hsum, hbud le_rfl⟩

theorem Filed.prune_noteRecent (h : Filed base p d b b') (seq : Seq) :
    Filed base p d b (b'.prune.noteRecent seq) ∧
      (b'.prune.noteRecent seq).oooMem ≤ (b'.prune.noteRecent seq).oooBudget := by
  obtain ⟨ooo, mem, recent, hall, hpre, hsum, hbud⟩ := prune_noteRecent_eq h.shape seq
  rw [hall]
  refine ⟨⟨?_, ?_, ?_, ?_⟩, hbud⟩
  · obtain ⟨_, _, _, dup, rfl⟩ := h.frame
    exact ⟨ooo, mem, recent, dup, rfl⟩
  · exact h.shape.sublist rfl rfl hpre.sublist hsum
  · exact fun E hE hb x hx => h.bound E hE hb x (hpre.subset hx)
  · exact fun W hW hag x hx => h.agrees W hW hag x (hpre.subset hx)

end RecvBuf

end PktKit.Vtcp
