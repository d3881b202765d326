import Mathlib

/-! # Wrapping counters and the unbounded positions they stand for

A counter of `w` bits that starts at `base` names position `k` of an unbounded
line by `base + k`, modulo `2 ^ w`. The difference of two counters is the exact
distance of the positions as long as these are less than half a turn apart; the
unsigned difference is exact for less than a whole turn.
-/

namespace PktKit.Foundations.Wrapping

variable {w : ℕ}

/-- The counter value of position `k`, counted from `base`. -/
def pos (base : BitVec w) (k : ℕ) : BitVec w := base + BitVec.ofNat w k

@[simp] theorem pos_zero (base : BitVec w) : pos base 0 = base := by simp [pos]

theorem pos_add (base : BitVec w) (a b : ℕ) : pos base a + BitVec.ofNat w b = pos base (a + b) := by
  simp [pos, BitVec.ofNat_add, BitVec.add_assoc]

theorem pos_sub_pos (base : BitVec w) (a b : ℕ) :
    pos base a - pos base b = BitVec.ofInt w ((a : ℤ) - b) := by
  apply BitVec.eq_of_toInt_eq
  rw [pos, pos, BitVec.toInt_sub, BitVec.toInt_add, BitVec.toInt_add, BitVec.toInt_ofInt,
    BitVec.toInt_ofNat', BitVec.toInt_ofNat', Int.bmod_sub_bmod, Int.sub_bmod_bmod]
  have h : base.toInt + (a : ℤ).bmod (2 ^ w) - (base.toInt + (b : ℤ).bmod (2 ^ w)) =
      (a : ℤ).bmod (2 ^ w) - (b : ℤ).bmod (2 ^ w) := by ring
  rw [h, Int.bmod_sub_bmod, Int.sub_bmod_bmod]

/-- Signed differences are exact within half a turn. -/
theorem toInt_pos_sub (hw : 0 < w) (base : BitVec w) {a b : ℕ}
    (hlo : -(2 ^ (w - 1) : ℤ) ≤ (a : ℤ) - b) (hhi : (a : ℤ) - b < 2 ^ (w - 1)) :
    (pos base a - pos base b).toInt = (a : ℤ) - b := by
  rw [pos_sub_pos, BitVec.toInt_ofInt_eq_self hw hlo hhi]

/-- Unsigned differences are exact within a whole turn. -/
theorem toNat_pos_sub (base : BitVec w) {a b : ℕ} (hle : b ≤ a) (hlt : a - b < 2 ^ w) :
    (pos base a - pos base b).toNat = a - b := by
  have h : ((a : ℤ) - b) = ((a - b : ℕ) : ℤ) := by omega
  rw [pos_sub_pos, h, BitVec.ofInt_natCast, BitVec.toNat_ofNat, Nat.mod_eq_of_lt hlt]

/-- Positions less than a whole turn apart have different counters. -/
theorem pos_inj (base : BitVec w) {a b : ℕ} (hab : a < b + 2 ^ w) (hba : b < a + 2 ^ w) :
    pos base a = pos base b ↔ a = b := by
  refine ⟨fun h => ?_, fun h => by rw [h]⟩
  rcases Nat.le_total b a with hle | hle
  · have hd := toNat_pos_sub base hle (by omega)
    rw [h, BitVec.sub_self, BitVec.toNat_zero] at hd
    omega
  · have hd := toNat_pos_sub base hle (by omega)
    rw [h, BitVec.sub_self, BitVec.toNat_zero] at hd
    omega

/-- Every counter is the counter of a position at or after a given one, less than a turn away. -/
theorem exists_pos_ge (base : BitVec w) (b : ℕ) (x : BitVec w) :
    x = pos base (b + (x - pos base b).toNat) := by
  rw [← pos_add, BitVec.ofNat_toNat, BitVec.setWidth_eq, BitVec.add_comm, BitVec.sub_add_cancel]

end PktKit.Foundations.Wrapping
