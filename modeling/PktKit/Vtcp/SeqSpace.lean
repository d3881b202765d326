import PktKit.Foundations.Wrapping

/-! # TCP sequence number arithmetic

Sequence numbers are 32-bit and wrap. They are compared by the sign of their
difference, which is the order of the stream positions they stand for as long as
these lie less than `2 ^ 31` apart.
-/

namespace PktKit.Vtcp
open Foundations.Wrapping

/-- A sequence number, the source's `u32`. -/
abbrev Seq := BitVec 32

/-- True iff `a` is strictly before `b` in sequence space. -/
def seqBefore (a b : Seq) : Bool := decide ((a - b).toInt < 0)

/-- True iff `a` is strictly after `b` in sequence space. -/
def seqAfter (a b : Seq) : Bool := decide (0 < (a - b).toInt)

def seqBeforeEq (a b : Seq) : Bool := decide ((a - b).toInt ≤ 0)

def seqAfterEq (a b : Seq) : Bool := decide (0 ≤ (a - b).toInt)

/-- Two stream positions less than half the sequence space apart. -/
def Near (a b : ℕ) : Prop := a < b + 2 ^ 31 ∧ b < a + 2 ^ 31

variable (base : Seq) {a b : ℕ}

theorem toInt_pos_sub_of_near (h : Near a b) : (pos base a - pos base b).toInt = (a : ℤ) - b := by
  obtain ⟨h1, h2⟩ := h
  exact toInt_pos_sub (by omega) base (by norm_num; omega) (by norm_num; omega)

theorem seqBefore_pos (h : Near a b) : seqBefore (pos base a) (pos base b) = decide (a < b) := by
  rw [seqBefore, toInt_pos_sub_of_near base h, decide_eq_decide]
  omega

theorem seqAfter_pos (h : Near a b) : seqAfter (pos base a) (pos base b) = decide (b < a) := by
  rw [seqAfter, toInt_pos_sub_of_near base h, decide_eq_decide]
  omega

theorem seqBeforeEq_pos (h : Near a b) : seqBeforeEq (pos base a) (pos base b) = decide (a ≤ b) := by
  rw [seqBeforeEq, toInt_pos_sub_of_near base h, decide_eq_decide]
  omega

theorem seqAfterEq_pos (h : Near a b) : seqAfterEq (pos base a) (pos base b) = decide (b ≤ a) := by
  rw [seqAfterEq, toInt_pos_sub_of_near base h, decide_eq_decide]
  omega

theorem pos_inj_of_near (h : Near a b) : pos base a = pos base b ↔ a = b := by
  obtain ⟨h1, h2⟩ := h
  exact pos_inj base (by omega) (by omega)

/-- The sign of a difference, read off its unsigned value. -/
theorem toInt_sub_eq (x y : Seq) : (x - y).toInt =
    if (x - y).toNat < 2 ^ 31 then ((x - y).toNat : ℤ) else (x - y).toNat - 2 ^ 32 := by
  rw [BitVec.toInt_eq_toNat_cond]
  split_ifs <;> omega

theorem seqAfter_iff (x y : Seq) : seqAfter x y = true ↔ 0 < (x - y).toNat ∧ (x - y).toNat < 2 ^ 31 := by
  have hlt := (x - y).isLt
  rw [seqAfter, decide_eq_true_iff, toInt_sub_eq]
  split_ifs <;> omega

/-- A difference, from what both are past a third number. -/
theorem toNat_sub_of_sub (x y l : Seq) :
    (x - y).toNat = ((x - l).toNat + (2 ^ 32 - (y - l).toNat)) % 2 ^ 32 := by
  have hx := BitVec.toNat_sub x l
  have hy := BitVec.toNat_sub y l
  have hxy := BitVec.toNat_sub x y
  omega

theorem seqBefore_iff (x y : Seq) : seqBefore x y = true ↔ 2 ^ 31 ≤ (x - y).toNat := by
  have hlt := (x - y).isLt
  rw [seqBefore, decide_eq_true_iff, toInt_sub_eq]
  split_ifs <;> omega

end PktKit.Vtcp
