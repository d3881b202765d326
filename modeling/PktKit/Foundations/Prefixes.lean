import Mathlib

/-! # Prefixes of bit strings

The leading bits of a word, and tables that hold a value for some prefixes and answer with the one of
the longest that matches.
-/

namespace PktKit.Foundations

variable {w m n : ℕ} {a b : BitVec w} {ν : Type*}

def maskOf (w n : ℕ) : BitVec w := if n = 0 then 0 else BitVec.allOnes w <<< (w - n)

/-- A word with all but its leading `n` bits cleared. -/
def high (n : ℕ) (a : BitVec w) : BitVec w := a &&& maskOf w n

theorem getLsbD_maskOf (hn : n ≤ w) (i : ℕ) : (maskOf w n).getLsbD i = (decide (w - n ≤ i) && decide (i < w)) := by
  unfold maskOf
  split
  · next h =>
    subst h
    simp only [BitVec.ofNat_eq_ofNat, BitVec.getLsbD_zero, Nat.sub_zero]
    by_cases hi : i < w <;> simp [hi]
  · next h =>
    simp only [BitVec.getLsbD_shiftLeft, BitVec.getLsbD_allOnes]
    by_cases hi : i < w <;> by_cases hl : i < w - n
    · simp [hi, hl, not_le.mpr hl]
    · simp [hi, hl, not_lt.mp hl]
      omega
    · simp [hi]
    · simp [hi]

/-- The leading bits of the leading bits. -/
theorem high_high (hmn : m ≤ n) (hn : n ≤ w) : high m (high n a) = high m a := by
  apply BitVec.eq_of_getLsbD_eq
  intro i hi
  simp only [high, BitVec.getLsbD_and, getLsbD_maskOf hn, getLsbD_maskOf (hmn.trans hn), hi,
    decide_true, Bool.and_true]
  by_cases h : w - m ≤ i
  · have : w - n ≤ i := by omega
    simp [h, this]
  · simp [h]

/-! ## How many words a prefix holds -/

/-- The leading bits and the others make up a word. -/
theorem eq_of_high_eq (hn : n ≤ w) (hhigh : high n a = high n b)
    (hlow : a.toNat % 2 ^ (w - n) = b.toNat % 2 ^ (w - n)) :
    a = b := by
  apply BitVec.eq_of_getLsbD_eq
  intro i hi
  by_cases hlt : i < w - n
  · have hbit := congrArg (Nat.testBit · i) hlow
    simpa only [Nat.testBit_mod_two_pow, hlt, decide_true, Bool.true_and, BitVec.testBit_toNat] using hbit
  · have hbit := congrArg (BitVec.getLsbD · i) hhigh
    simpa only [high, BitVec.getLsbD_and, getLsbD_maskOf hn, not_lt.mp hlt, hi, decide_true,
      Bool.and_true] using hbit

theorem card_high_le (hn : n ≤ w) (b : BitVec w) :
    ((Finset.range (2 ^ w)).filter fun i => high n (BitVec.ofNat w i) = b).card ≤ 2 ^ (w - n) := by
  rw [← Finset.card_range (2 ^ (w - n))]
  refine Finset.card_le_card_of_injOn (· % 2 ^ (w - n)) (fun i _ => ?_) fun i hi j hj heq => ?_
  · simpa using Nat.mod_lt i (Nat.two_pow_pos (w - n))
  · rw [Finset.mem_coe, Finset.mem_filter, Finset.mem_range] at hi hj
    have heq' : BitVec.ofNat w i = BitVec.ofNat w j := by
      refine eq_of_high_eq hn (hi.2.trans hj.2.symm) ?_
      rwa [BitVec.toNat_ofNat, BitVec.toNat_ofNat, Nat.mod_eq_of_lt hi.1, Nat.mod_eq_of_lt hj.1]
    have hnat := congrArg BitVec.toNat heq'
    rwa [BitVec.toNat_ofNat, BitVec.toNat_ofNat, Nat.mod_eq_of_lt hi.1, Nat.mod_eq_of_lt hj.1] at hnat

/-- Prefixes whose sizes do not add up to all words leave one out. -/
theorem exists_outside (ps : List (ℕ × BitVec w)) (hps : ∀ p ∈ ps, p.1 ≤ w)
    (hsum : (ps.map fun p => 2 ^ (w - p.1)).sum < 2 ^ w) : ∃ a : BitVec w, ∀ p ∈ ps, high p.1 a ≠ p.2 := by
  have hcard : ∀ ps : List (ℕ × BitVec w), (∀ p ∈ ps, p.1 ≤ w) →
      ((Finset.range (2 ^ w)).filter fun i => ∃ p ∈ ps, high p.1 (BitVec.ofNat w i) = p.2).card ≤
        (ps.map fun p => 2 ^ (w - p.1)).sum := fun ps hps => by
    induction ps with
    | nil => simp
    | cons p ps ih =>
      simp only [List.mem_cons, or_and_right, exists_or, exists_eq_left, Finset.filter_or,
        List.map_cons, List.sum_cons]
      exact (Finset.card_union_le _ _).trans (Nat.add_le_add (card_high_le (hps p List.mem_cons_self) p.2)
        (ih fun q hq => hps q (List.mem_cons_of_mem p hq)))
  by_contra hall
  push Not at hall
  have hfull : (Finset.range (2 ^ w)).filter (fun i => ∃ p ∈ ps, high p.1 (BitVec.ofNat w i) = p.2) =
    Finset.range (2 ^ w) :=
    Finset.filter_true_of_mem fun i _ => hall (BitVec.ofNat w i)
  have := hcard ps hps
  rw [hfull, Finset.card_range] at this
  omega

/-- A value for some prefixes, each given by its length and its bits. -/
abbrev Trie (w : ℕ) (ν : Type*) := ℕ × BitVec w → Option ν

def longest (t : Trie w ν) (a : BitVec w) : Option ν :=
  (List.range (w + 1)).reverse.findSome? fun n => t (n, high n a)

theorem findSome?_range_reverse_eq_none {f : ℕ → Option ν} {k : ℕ} :
    (List.range k).reverse.findSome? f = none ↔ ∀ n < k, f n = none := by
  simp [List.findSome?_eq_none_iff]

theorem findSome?_range_reverse_eq_some {f : ℕ → Option ν} {k : ℕ} {v : ν}
    (h : (List.range k).reverse.findSome? f = some v) :
    ∃ n < k, f n = some v ∧ ∀ m, n < m → m < k → f m = none := by
  induction k with
  | zero => simp at h
  | succ k ih =>
    rw [List.range_succ, List.reverse_append, List.reverse_singleton, List.singleton_append,
      List.findSome?_cons] at h
    cases hk : f k with
    | none =>
      rw [hk] at h
      obtain ⟨n, hn, hv, hafter⟩ := ih h
      refine ⟨n, by omega, hv, fun m hm hmk => ?_⟩
      rcases Nat.lt_succ_iff_lt_or_eq.mp hmk with hlt | rfl
      · exact hafter m hm hlt
      · exact hk
    | some x =>
      rw [hk] at h
      exact ⟨k, Nat.lt_succ_self k, hk.trans h, fun m hm hmk => by omega⟩

theorem longest_eq_none {t : Trie w ν} : longest t a = none ↔ ∀ n ≤ w, t (n, high n a) = none := by
  rw [longest, findSome?_range_reverse_eq_none]
  exact forall_congr' fun n => by rw [Nat.lt_succ_iff]

theorem longest_eq_some {t : Trie w ν} {v : ν} (h : longest t a = some v) :
    ∃ n ≤ w, t (n, high n a) = some v ∧ ∀ m, n < m → m ≤ w → t (m, high m a) = none := by
  obtain ⟨n, hn, hv, hafter⟩ := findSome?_range_reverse_eq_some h
  exact ⟨n, Nat.lt_succ_iff.mp hn, hv, fun m hm hmw => hafter m hm (Nat.lt_succ_iff.mpr hmw)⟩

end PktKit.Foundations
