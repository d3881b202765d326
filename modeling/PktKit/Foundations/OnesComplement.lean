import PktKit.Foundations.Octets

/-! # One's-complement sums

Sums of 16-bit words taken modulo `2 ^ 16 - 1`, with the two zeros `0` and `0xFFFF`.
-/

namespace PktKit.Foundations

/-- The sum of the 16-bit words of some bytes; an odd one at the end stands for the high byte of a word. -/
def wordSum : List UInt8 → ℕ
  | [] => 0
  | [a] => a.toNat * 256
  | a :: b :: l => a.toNat * 256 + b.toNat + wordSum l

/-- Add the carries back in until none is left. -/
def fold (s : ℕ) : ℕ := if s < 65536 then s else fold (s % 65536 + s / 65536)
termination_by s
decreasing_by omega

theorem fold_eq (s : ℕ) : fold s = if s = 0 then 0 else (s - 1) % 65535 + 1 := by
  fun_induction fold s with
  | case1 s h =>
    split
    · assumption
    · rw [Nat.mod_eq_of_lt] <;> omega
  | case2 s h ih =>
    rw [ih, if_neg (by omega), if_neg (by omega)]
    have hs : s - 1 = s % 65536 + s / 65536 - 1 + 65535 * (s / 65536) := by omega
    rw [hs, Nat.add_mul_mod_self_left]

theorem fold_le (s : ℕ) : fold s ≤ 65535 := by
  rw [fold_eq]
  split <;> omega

theorem fold_mod (s : ℕ) : fold s % 65535 = s % 65535 := by
  rw [fold_eq]
  split <;> omega

theorem fold_eq_zero {s : ℕ} : fold s = 0 ↔ s = 0 := by
  rw [fold_eq]
  split <;> simp_all

/-- A sum folds to all ones when it is a multiple of `0xFFFF`, but not `0` itself. -/
theorem fold_eq_ones {s : ℕ} : fold s = 65535 ↔ s ≠ 0 ∧ s % 65535 = 0 := by
  rw [fold_eq]
  split <;> omega

/-- The complement of a folded sum cancels the sum. -/
theorem compl_fold_add (s : ℕ) : (65535 - fold s + s) % 65535 = 0 := by
  have h := fold_mod s
  have hle := fold_le s
  omega

theorem wordSum_append {x : List UInt8} (hx : Even x.length) (y : List UInt8) :
    wordSum (x ++ y) = wordSum x + wordSum y := by
  fun_induction wordSum x with
  | case1 => simp
  | case2 a => simp at hx
  | case3 a b l ih =>
    have hl : Even l.length := by
      simpa [Nat.even_add_one] using hx
    simp only [List.cons_append, wordSum, ih hl]
    omega

/-- Behind an odd number of bytes the rest begins in the low half of a word. -/
theorem wordSum_append_odd {x : List UInt8} (hx : Odd x.length) (y : List UInt8) :
    wordSum (x ++ y) = wordSum x + wordSum (0 :: y) := by
  fun_induction wordSum x with
  | case1 => simp at hx
  | case2 a =>
    cases y with
    | nil => simp [wordSum]
    | cons b y => simp only [List.singleton_append, wordSum, UInt8.toNat_zero]; omega
  | case3 a b l ih =>
    have hl : Odd l.length := by
      simpa [Nat.odd_add_one] using hx
    simp only [List.cons_append, wordSum, ih hl]
    omega

/-- Overwriting bytes from a word on changes the sum by the difference of the bytes. -/
theorem wordSum_overwrite {l new : List UInt8} {i : ℕ} (hi : Even i) (h : i + new.length ≤ l.length) :
    wordSum (overwrite l i new) + wordSum (slice l i (i + new.length)) = wordSum l + wordSum new := by
  have htake : Even (l.take i).length := by
    rw [List.length_take, min_eq_left (by omega)]
    exact hi
  have hmid : (slice l i (i + new.length)).length = new.length := by
    rw [slice_length h, Nat.add_sub_cancel_left]
  have hl : l = l.take i ++ (slice l i (i + new.length) ++ l.drop (i + new.length)) := by
    rw [slice, Nat.add_sub_cancel_left, ← List.drop_drop, List.take_append_drop, List.take_append_drop]
  rw [overwrite, List.append_assoc, wordSum_append htake]
  conv_rhs => rw [hl, wordSum_append htake]
  obtain hn | hn := Nat.even_or_odd new.length
  · rw [wordSum_append hn, wordSum_append (by rwa [hmid])]
    omega
  · rw [wordSum_append_odd hn, wordSum_append_odd (by rwa [hmid])]
    omega

theorem wordSum_eq_zero {l : List UInt8} : wordSum l = 0 ↔ ∀ b ∈ l, b = 0 := by
  have hz (b : UInt8) : b.toNat = 0 ↔ b = 0 := by rw [← UInt8.toNat_inj]; rfl
  fun_induction wordSum l with
  | case1 => simp
  | case2 a => simp [hz]
  | case3 a b l ih =>
    have hl : wordSum l = 0 ↔ ∀ b ∈ l, b = 0 := ih
    rw [List.forall_mem_cons, List.forall_mem_cons, ← hl, ← hz a, ← hz b]
    omega

/-- Carries may be added back at any time. -/
theorem fold_fold_add (s t : ℕ) : fold (fold s + t) = fold (s + t) := by
  have hz := fold_eq_zero (s := s)
  have hm := fold_mod s
  rw [fold_eq, fold_eq (s + t)]
  split_ifs <;> omega

/-! ## Adding word by word -/

/-- One's-complement addition: the carry goes back in at once. -/
def onesAdd (a b : ℕ) : ℕ := if a + b < 65536 then a + b else a + b - 65535

/-- The 16-bit words of some bytes, an odd one at the end as the high byte of a word. -/
def words : List UInt8 → List ℕ
  | [] => []
  | [a] => [a.toNat * 256]
  | a :: b :: l => (a.toNat * 256 + b.toNat) :: words l

theorem sum_words (l : List UInt8) : (words l).sum = wordSum l := by
  fun_induction words l with
  | case1 => rfl
  | case2 a => simp [wordSum]
  | case3 a b l ih => rw [List.sum_cons, ih, wordSum]

theorem words_lt {l : List UInt8} {w : ℕ} (h : w ∈ words l) : w < 65536 := by
  fun_induction words l with
  | case1 => simp at h
  | case2 a =>
    have ha := a.toNat_lt
    rw [List.mem_singleton.mp h]
    omega
  | case3 a b l ih =>
    have ha := a.toNat_lt
    have hb := b.toNat_lt
    obtain rfl | h := List.mem_cons.mp h
    · omega
    · exact ih h

/-- Adding word by word comes to the same as adding all and folding the carries at the end. -/
theorem foldl_onesAdd {l : List ℕ} (h : ∀ w ∈ l, w < 65536) (s : ℕ) :
    l.foldl onesAdd (fold s) = fold (s + l.sum) := by
  induction l generalizing s with
  | nil => simp
  | cons w l ih =>
    have hw := h w (List.mem_cons_self ..)
    have hadd : onesAdd (fold s) w = fold (s + w) := by
      have hle := fold_le s
      rw [← fold_fold_add, fold_eq (fold s + w), onesAdd]
      split_ifs <;> omega
    rw [List.foldl_cons, hadd, ih (fun v hv => h v (List.mem_cons_of_mem _ hv)), List.sum_cons, Nat.add_assoc]

end PktKit.Foundations
