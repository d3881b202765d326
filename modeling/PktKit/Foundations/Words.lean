import Mathlib

/-! # Words as sets of bits

One bit of a word is tested, set or cleared through a mask; the first bit set in a row of words is
found a word at a time.
-/

namespace PktKit.Foundations

variable {w : ℕ} (x : BitVec w) {i j : ℕ}

def bit (w i : ℕ) : BitVec w := 1#w <<< i

theorem getLsbD_bit (hi : i < w) : (bit w i).getLsbD j = decide (i = j) := by
  rw [bit, ← BitVec.twoPow_eq, BitVec.getLsbD_twoPow, decide_eq_true hi, Bool.true_and]

theorem and_bit_ne_zero (hi : i < w) : ((x &&& bit w i) != 0) = x.getLsbD i := by
  rw [bit, ← BitVec.twoPow_eq, BitVec.and_twoPow]
  cases x.getLsbD i with
  | false => simp
  | true =>
    have hne : BitVec.twoPow w i ≠ 0 := by
      intro h
      have hbit := congrArg (BitVec.getLsbD · i) h
      simp [hi] at hbit
    simpa using hne

theorem getLsbD_or_bit (hi : i < w) : (x ||| bit w i).getLsbD j = (x.getLsbD j || decide (i = j)) := by
  rw [BitVec.getLsbD_or, getLsbD_bit hi]

theorem getLsbD_clear_bit (hi : i < w) (hj : j < w) :
    (x &&& ~~~bit w i).getLsbD j = (x.getLsbD j && decide (i ≠ j)) := by
  rw [BitVec.getLsbD_and, BitVec.getLsbD_not, getLsbD_bit hi, decide_eq_true hj, Bool.true_and, decide_not]

/-! ## The first bit of a row of words -/

def bitAt {w : ℕ} (words : ℕ → BitVec w) (q : ℕ) : Bool := (words (q / w)).getLsbD (q % w)

def firstBit {w : ℕ} (words : ℕ → BitVec w) (first n : ℕ) : Option ℕ :=
  (List.range' first n).findSome? fun i => if words i ≠ 0 then some (i * w + (words i).ctz.toNat) else none

variable {words : ℕ → BitVec w} {first n p q : ℕ}

theorem ctz_lt {x : BitVec w} (h : x ≠ 0) : x.ctz.toNat < w := by
  by_contra hge
  have hbit := BitVec.getLsbD_true_ctz_of_ne_zero h
  rw [BitVec.getLsbD_of_ge x _ (not_lt.mp hge)] at hbit
  cases hbit

theorem bitAt_eq_false (h : words (q / w) = 0) : bitAt words q = false := by
  rw [bitAt, h]
  exact BitVec.getLsbD_zero

theorem bitAt_add (hi : i < w) (j : ℕ) : bitAt words (j * w + i) = (words j).getLsbD i := by
  have hdiv : (j * w + i) / w = j := by
    rw [Nat.mul_comm, Nat.mul_add_div (by omega), Nat.div_eq_of_lt hi, Nat.add_zero]
  have hmod : (j * w + i) % w = i := by
    rw [Nat.mul_comm, Nat.mul_add_mod, Nat.mod_eq_of_lt hi]
  rw [bitAt, hdiv, hmod]

theorem bitAt_update_clear (hw : 0 < w) :
    bitAt (Function.update words (p / w) (words (p / w) &&& ~~~bit w (p % w))) q =
      (bitAt words q && decide (p ≠ q)) := by
  rw [bitAt, Function.update_apply]
  split
  · next hword =>
    rw [getLsbD_clear_bit _ (Nat.mod_lt p hw) (Nat.mod_lt q hw), bitAt, ← hword, Bool.eq_iff_iff]
    have hsame : p % w = q % w ↔ p = q :=
      ⟨fun hmod => by rw [← Nat.div_add_mod p w, ← Nat.div_add_mod q w, hword, hmod], fun h => h ▸ rfl⟩
    simp only [Bool.and_eq_true, decide_eq_true_eq, ne_eq, hsame]
  · next hword =>
    have hne : p ≠ q := fun h => hword (h ▸ rfl)
    rw [decide_eq_true hne, Bool.and_true]
    rfl

theorem bitAt_update_set (hw : 0 < w) :
    bitAt (Function.update words (p / w) (words (p / w) ||| bit w (p % w))) q =
      (bitAt words q || decide (p = q)) := by
  rw [bitAt, Function.update_apply]
  split
  · next hword =>
    rw [getLsbD_or_bit _ (Nat.mod_lt p hw), bitAt, ← hword, Bool.eq_iff_iff]
    have hsame : p % w = q % w ↔ p = q :=
      ⟨fun hmod => by rw [← Nat.div_add_mod p w, ← Nat.div_add_mod q w, hword, hmod], fun h => h ▸ rfl⟩
    simp only [Bool.or_eq_true, decide_eq_true_eq, hsame]
  · next hword =>
    have hne : p ≠ q := fun h => hword (h ▸ rfl)
    rw [decide_eq_false hne, Bool.or_false]
    rfl

theorem firstBit_succ : firstBit words first (n + 1) =
    if words first ≠ 0 then some (first * w + (words first).ctz.toNat) else firstBit words (first + 1) n := by
  rw [firstBit, List.range'_succ, List.findSome?_cons]
  by_cases h : words first ≠ 0
  · simp only [if_pos h]
  · simp only [if_neg h]
    rfl

theorem firstBit_eq_none (h : firstBit words first n = none) (hlo : first ≤ q / w) (hhi : q / w < first + n) :
    bitAt words q = false := by
  have hword := List.findSome?_eq_none_iff.mp h (q / w) (List.mem_range'_1.mpr ⟨hlo, hhi⟩)
  refine bitAt_eq_false ?_
  by_contra hne
  rw [if_pos hne] at hword
  cases hword

theorem firstBit_eq_some (h : firstBit words first n = some p) :
    first ≤ p / w ∧ p / w < first + n ∧ bitAt words p = true ∧ ∀ q, first ≤ q / w → q < p →
      bitAt words q = false := by
  induction n generalizing first with
  | zero => cases h
  | succ n ih =>
    rw [firstBit_succ] at h
    by_cases hne : words first ≠ 0
    · rw [if_pos hne] at h
      obtain rfl := Option.some.inj h
      have hlt := ctz_lt hne
      have hw : 0 < w := by omega
      have hdiv : (first * w + (words first).ctz.toNat) / w = first := by
        rw [Nat.mul_comm, Nat.mul_add_div hw, Nat.div_eq_of_lt hlt, Nat.add_zero]
      refine ⟨hdiv.ge, by omega, ?_, ?_⟩
      · rw [bitAt_add hlt]
        exact BitVec.getLsbD_true_ctz_of_ne_zero hne
      · intro q hq hqp
        -- an earlier position of the same word
        have hsame : q / w = first := le_antisymm (hdiv ▸ Nat.div_le_div_right hqp.le) hq
        rw [bitAt, hsame]
        refine BitVec.getLsbD_false_of_lt_ctz ?_
        have hsplit := Nat.div_add_mod q w
        rw [hsame, Nat.mul_comm] at hsplit
        omega
    · rw [if_neg hne] at h
      obtain ⟨hle, hlt, hbit, hmin⟩ := ih h
      refine ⟨Nat.le_of_succ_le hle, by omega, hbit, fun q hq hqp => ?_⟩
      rcases hq.lt_or_eq with hlt | heq
      · exact hmin q hlt hqp
      · exact bitAt_eq_false (heq ▸ not_not.mp hne)

end PktKit.Foundations
