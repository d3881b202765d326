import PktKit.Foundations.Fragments
import PktKit.Foundations.Ranges
import PktKit.Vtcp.RecvBuf

/-! # Reassembly keeps the stream

The ranges of a receive buffer are read as pieces of an unbounded stream whose
position 0 has sequence number `base`. A segment merged into the ranges it
touches gives one range, whichever of them absorbs the rest, and it holds what
the stream holds there.
-/

namespace PktKit.Vtcp
open Foundations.Wrapping Foundations.Fragments Foundations.Ranges

variable {α : Type*} {base : Seq}

/-- The stream position past the last byte of a range. -/
def rangeEnd (x : ℕ × OooEntry α) : ℕ := x.1 + x.2.data.length

/-- Two ranges in order with a hole between them. -/
def Apart (x y : ℕ × OooEntry α) : Prop := rangeEnd x < y.1

/-- A nonempty range filed under the stream position of its sequence number. -/
structure WellPlaced (base : Seq) (x : ℕ × OooEntry α) : Prop where
  seq_eq : x.2.seq = pos base x.1
  ne_nil : x.2.data ≠ []

theorem WellPlaced.endSeq_eq {x : ℕ × OooEntry α} (h : WellPlaced base x) :
    x.2.endSeq = pos base (rangeEnd x) := by
  rw [OooEntry.endSeq, h.seq_eq, pos_add, rangeEnd]

theorem WellPlaced.lt_rangeEnd {x : ℕ × OooEntry α} (h : WellPlaced base x) : x.1 < rangeEnd x := by
  have := List.length_pos_of_ne_nil h.ne_nil
  rw [rangeEnd]
  omega

/-- The end of the last of some ranges, `c` if there is none. -/
def lastEnd : ℕ → List (ℕ × OooEntry α) → ℕ
  | c, [] => c
  | _, x :: xs => lastEnd (rangeEnd x) xs

theorem lastEnd_append_cons (c : ℕ) (xs : List (ℕ × OooEntry α)) (x : ℕ × OooEntry α)
    (ys : List (ℕ × OooEntry α)) : lastEnd c (xs ++ x :: ys) = lastEnd (rangeEnd x) ys := by
  induction xs generalizing c with
  | nil => rfl
  | cons y xs ih => exact ih _

theorem lastEnd_cases (c : ℕ) (xs : List (ℕ × OooEntry α)) :
    (xs = [] ∧ lastEnd c xs = c) ∨ ∃ x ∈ xs, lastEnd c xs = rangeEnd x := by
  rcases List.eq_nil_or_concat xs with rfl | ⟨init, x, rfl⟩
  · exact .inl ⟨rfl, rfl⟩
  · exact .inr ⟨x, by simp, by simp [lastEnd_append_cons, lastEnd]⟩

theorem le_lastEnd {xs : List (ℕ × OooEntry α)} (h : xs.Pairwise Apart)
    (hw : ∀ x ∈ xs, WellPlaced base x) (c : ℕ) : ∀ x ∈ xs, rangeEnd x ≤ lastEnd c xs := by
  induction xs generalizing c with
  | nil => simp
  | cons y ys ih =>
    obtain ⟨hy, hys⟩ := List.pairwise_cons.mp h
    have ih' := ih hys (fun x hx => hw x (List.mem_cons_of_mem _ hx)) (rangeEnd y)
    intro x hx
    rcases List.mem_cons.mp hx with rfl | hx
    · rcases lastEnd_cases (rangeEnd x) ys with ⟨_, he⟩ | ⟨z, hz, he⟩
      · exact he.symm.le
      · have h1 : rangeEnd x < z.1 := hy z hz
        have h2 := (hw z (List.mem_cons_of_mem _ hz)).lt_rangeEnd
        change rangeEnd x ≤ lastEnd (rangeEnd x) ys
        omega
    · exact ih' x hx

namespace RecvBuf

/-- Between two positions inside the new segment the gap is filled with its bytes there. -/
theorem gapTo_pos (base : Seq) {p a b : ℕ} {d : List α} (hab : Near a b) (hd : d.length < 2 ^ 31)
    (hin : a < b → p ≤ a ∧ b ≤ p + d.length) :
    ∃ g, gapTo (pos base p) d (pos base a) (pos base b) = some g ∧ g.length = b - a ∧
      ∀ f : ℕ → Option α, (∀ o, a ≤ o → o < b → f o = d[o - p]?) → Reads f a g := by
  by_cases hlt : a < b
  · obtain ⟨hpa, hbp⟩ := hin hlt
    have hi : (pos base a - pos base p).toNat = a - p := toNat_pos_sub base hpa (by omega)
    have hj : (pos base b - pos base p).toNat = b - p := toNat_pos_sub base (by omega) (by omega)
    have hlen : ((d.take (b - p)).drop (a - p)).length = b - a := by
      simp
      omega
    refine ⟨(d.take (b - p)).drop (a - p), ?_, hlen, fun f hf i hi => ?_⟩
    · rw [gapTo, seqBefore_pos base hab, decide_eq_true hlt, if_pos rfl, newPart, hi, hj, if_pos]
      omega
    · rw [List.getElem?_drop, List.getElem?_take_of_lt (by omega), hf _ (by omega) (by omega)]
      congr 1
      omega
  · refine ⟨[], ?_, by simp; omega, fun f _ => Reads.nil f a⟩
    rw [gapTo, seqBefore_pos base hab, decide_eq_false hlt, if_neg (by simp)]

def Free (xs : List (ℕ × OooEntry α)) (o : ℕ) : Prop := ∀ x ∈ xs, o < x.1 ∨ rangeEnd x ≤ o

/-- Gathering ranges with their gaps inside the new segment gives what they hold, and the segment's
bytes between them, from the cursor to the last range's end. -/
theorem gather_pos (base : Seq) {N p c : ℕ} {d : List α} {xs : List (ℕ × OooEntry α)} (hd : d.length < 2 ^ 31)
    (hap : xs.Pairwise Apart) (hw : ∀ x ∈ xs, WellPlaced base x)
    (hkey : ∀ x ∈ xs, N < x.1 ∧ x.1 < N + 2 ^ 31) (hend : ∀ x ∈ xs, p ≤ rangeEnd x)
    (hin : ∀ x ∈ xs, x.1 ≤ p + d.length) (hN : N < c) (hc : ∀ x ∈ xs, c ≤ x.1)
    (hstart : p ≤ c ∨ ∀ x, xs.head? = some x → c = x.1) :
    ∃ out, gather (pos base p) d (pos base c) (xs.map Prod.snd) = some (out, pos base (lastEnd c xs)) ∧
      c + out.length = lastEnd c xs ∧
      ∀ f : ℕ → Option α,
        (∀ o, c ≤ o → o < lastEnd c xs → p ≤ o → o < p + d.length → Free xs o → f o = d[o - p]?) →
        (∀ x ∈ xs, Reads f x.1 x.2.data) → Reads f c out := by
  induction xs generalizing c with
  | nil => exact ⟨[], rfl, rfl, fun f _ _ => Reads.nil f c⟩
  | cons x xs ih =>
    obtain ⟨hx, hxs⟩ := List.pairwise_cons.mp hap
    have hmem : ∀ y ∈ xs, y ∈ x :: xs := fun y hy => List.mem_cons_of_mem _ hy
    have hx0 : x ∈ x :: xs := List.mem_cons_self
    have hcx := hc x hx0
    have hkx := hkey x hx0
    have hlt := (hw x hx0).lt_rangeEnd
    have hpc : c < x.1 → p ≤ c := by
      intro hlt'
      rcases hstart with h | h
      · exact h
      · have := h x rfl
        omega
    obtain ⟨g, hg, hglen, hgreads⟩ := gapTo_pos base (p := p) (a := c) (b := x.1)
      (d := d) ⟨by omega, by omega⟩ hd fun hlt' => ⟨hpc hlt', hin x hx0⟩
    obtain ⟨out, ho, holen, horeads⟩ := ih hxs (fun y hy => hw y (hmem y hy))
      (fun y hy => hkey y (hmem y hy)) (fun y hy => hend y (hmem y hy))
      (fun y hy => hin y (hmem y hy)) (c := rangeEnd x) (by omega) (fun y hy => (hx y hy).le)
      (.inl (hend x hx0))
    refine ⟨g ++ x.2.data ++ out, ?_, ?_, fun f hfree hf => ?_⟩
    · rw [List.map_cons, gather, (hw x hx0).seq_eq, hg, Option.bind_some,
        (hw x hx0).endSeq_eq, ho, Option.map_some]
      rfl
    · simp only [List.length_append, lastEnd]
      rw [← holen, rangeEnd]
      omega
    · have h1 : c + g.length = x.1 := by omega
      have h2 : c + (g ++ x.2.data).length = rangeEnd x := by
        rw [List.length_append, ← Nat.add_assoc, h1, rangeEnd]
      -- what lies before the first range is in none, and what is past it is free of the rest
      have hgap : Reads f c g := by
        refine hgreads f fun o hco hox => hfree o hco ?_ ?_ ?_ fun y hy => ?_
        · rw [lastEnd]
          omega
        · exact (hpc (by omega)).trans hco
        · exact lt_of_lt_of_le hox (hin x hx0)
        · rcases List.mem_cons.mp hy with rfl | hy
          · exact .inl hox
          · have : rangeEnd x < y.1 := hx y hy
            exact .inl (by omega)
      refine Reads.append (Reads.append hgap ?_) ?_
      · rw [h1]
        exact hf x hx0
      · rw [h2]
        refine horeads f (fun o hxo hol hpo hop hfr => hfree o (by omega) hol hpo hop ?_) fun y hy =>
          hf y (hmem y hy)
        intro y hy
        rcases List.mem_cons.mp hy with rfl | hy
        · exact .inr hxo
        · exact hfr y hy

/-- Gathering ranges around one of them is gathering them all. -/
theorem gather_append_cons (seq : Seq) (d : List α) (e : OooEntry α) (left right : List (OooEntry α)) (c : Seq) :
    gather seq d c (left ++ e :: right) = (gather seq d c left).bind fun front =>
      (gapTo seq d front.2 e.seq).bind fun gap =>
      (gather seq d e.endSeq right).map fun back => (front.1 ++ gap ++ e.data ++ back.1, back.2) := by
  induction left generalizing c with
  | nil => simp [gather]
  | cons x left ih =>
    rw [List.cons_append, gather, gather, ih]
    cases gapTo seq d c x.seq <;> cases gather seq d x.endSeq left <;>
      simp [Option.map_bind, Function.comp_def, List.append_assoc]

theorem lastLongest_lt {es : List (OooEntry α)} (h : es ≠ []) : lastLongest es < es.length := by
  cases es with
  | nil => exact absurd rfl h
  | cons e es =>
    rw [lastLongest]
    split
    · simp
    · rename_i m hm
      have := (List.getElem?_eq_some_iff.mp hm).1
      split
      · simpa using this
      · simp

/-- The ranges left and right of the one at index `k`, as the partition by sequence number finds
them. -/
theorem partition_eraseIdx {N : ℕ} {pre post : List (ℕ × OooEntry α)} {b : ℕ × OooEntry α}
    (hap : (pre ++ b :: post).Pairwise Apart) (hw : ∀ x ∈ pre ++ b :: post, WellPlaced base x)
    (hkey : ∀ x ∈ pre ++ b :: post, N < x.1 ∧ x.1 < N + 2 ^ 31) :
    (((pre ++ b :: post).map Prod.snd).eraseIdx pre.length).partition
      (fun e => seqBefore e.seq b.2.seq) = (pre.map Prod.snd, post.map Prod.snd) := by
  have hbm : b ∈ pre ++ b :: post := by simp
  have hcmp : ∀ x ∈ pre ++ b :: post, seqBefore x.2.seq b.2.seq = decide (x.1 < b.1) := by
    intro x hx
    have h1 := hkey x hx
    have h2 := hkey b hbm
    rw [(hw x hx).seq_eq, (hw b hbm).seq_eq, seqBefore_pos base ⟨by omega, by omega⟩]
  obtain ⟨-, hbpost, hpre⟩ := List.pairwise_append.mp hap
  have hleft : ∀ x ∈ pre, seqBefore x.2.seq b.2.seq = true := by
    intro x hx
    have h1 : rangeEnd x < b.1 := hpre x hx b List.mem_cons_self
    have h2 := (hw x (by simp [hx])).lt_rangeEnd
    rw [hcmp x (by simp [hx]), decide_eq_true_iff]
    omega
  have hright : ∀ x ∈ post, seqBefore x.2.seq b.2.seq = false := by
    intro x hx
    have h1 : rangeEnd b < x.1 := (List.pairwise_cons.mp hbpost).1 x hx
    have h2 := (hw b hbm).lt_rangeEnd
    rw [hcmp x (by simp [hx]), decide_eq_false_iff_not]
    omega
  have herase : ((pre ++ b :: post).map Prod.snd).eraseIdx pre.length =
      pre.map Prod.snd ++ post.map Prod.snd := by
    rw [List.map_append, List.map_cons, List.eraseIdx_append_of_length_le (by simp)]
    simp
  rw [herase, List.partition_eq_filter_filter, List.filter_append, List.filter_append]
  congr 1
  · rw [List.filter_eq_self.mpr (List.forall_mem_map.mpr hleft),
      List.filter_eq_nil_iff.mpr (List.forall_mem_map.mpr (by simpa using hright)), List.append_nil]
  · rw [List.filter_eq_nil_iff.mpr (List.forall_mem_map.mpr (by simpa using hleft)),
      List.filter_eq_self.mpr (List.forall_mem_map.mpr (by simpa using hright)), List.nil_append]

/-- Where a segment at `p` merged with the ranges `xs` starts. -/
def firstStart (p : ℕ) : List (ℕ × OooEntry α) → ℕ
  | [] => p
  | x :: _ => min p x.1

theorem firstStart_le (p : ℕ) (xs : List (ℕ × OooEntry α)) : firstStart p xs ≤ p := by
  cases xs with
  | nil => exact le_rfl
  | cons x xs => exact min_le_left _ _

theorem firstStart_le_key {xs : List (ℕ × OooEntry α)} (hap : xs.Pairwise Apart)
    (hw : ∀ x ∈ xs, WellPlaced base x) (p : ℕ) : ∀ x ∈ xs, firstStart p xs ≤ x.1 := by
  cases xs with
  | nil => simp
  | cons y ys =>
    intro x hx
    have hy : firstStart p (y :: ys) ≤ y.1 := min_le_right _ _
    rcases List.mem_cons.mp hx with rfl | hx
    · exact hy
    · have h1 : rangeEnd y < x.1 := (List.pairwise_cons.mp hap).1 x hx
      have h2 := (hw y List.mem_cons_self).lt_rangeEnd
      omega

theorem lt_firstStart {m p : ℕ} {xs : List (ℕ × OooEntry α)} (hp : m < p) (h : ∀ x ∈ xs, m < x.1) :
    m < firstStart p xs := by
  cases xs with
  | nil => exact hp
  | cons x xs => exact lt_min hp (h x List.mem_cons_self)

end RecvBuf

end PktKit.Vtcp
