import Mathlib

/-! # Octets

Fields of a byte string: numbers written least significant byte first, and slices of a concatenation.
-/

namespace PktKit.Foundations

/-- A number as `k` bytes, the least significant first. -/
def leBytes : ℕ → ℕ → List UInt8
  | 0, _ => []
  | k + 1, n => UInt8.ofNat n :: leBytes k (n / 256)

/-- The number bytes stand for, the least significant first. -/
def ofLeBytes (l : List UInt8) : ℕ := l.foldr (fun b n => b.toNat + 256 * n) 0

@[simp] theorem leBytes_length (k n : ℕ) : (leBytes k n).length = k := by
  induction k generalizing n with
  | zero => rfl
  | succ k ih => simp [leBytes, ih]

theorem ofLeBytes_leBytes (k n : ℕ) : ofLeBytes (leBytes k n) = n % 256 ^ k := by
  induction k generalizing n with
  | zero => simp [leBytes, ofLeBytes, Nat.mod_one]
  | succ k ih =>
    have hk := ih (n / 256)
    simp only [ofLeBytes] at hk
    simp only [leBytes, ofLeBytes, List.foldr_cons, hk, UInt8.toNat_ofNat', Nat.reducePow]
    rw [pow_succ, mul_comm (256 ^ k), Nat.mod_mul]

def slice {α : Type*} (l : List α) (a b : ℕ) : List α := (l.drop a).take (b - a)

theorem slice_length {α : Type*} {l : List α} {a b : ℕ} (h : b ≤ l.length) : (slice l a b).length = b - a := by
  simp only [slice, List.length_take, List.length_drop]
  omega

/-! A field of a concatenation is found by the lengths of those before it. -/

theorem slice_skip {α : Type*} {x y : List α} {a b : ℕ} (h : x.length ≤ a) :
    slice (x ++ y) a b = slice y (a - x.length) (b - x.length) := by
  rw [slice, slice, List.drop_append, List.drop_eq_nil_of_le h, List.nil_append, Nat.sub_sub_sub_cancel_right h]

theorem slice_head {α : Type*} {x y : List α} {b : ℕ} (h : x.length = b) : slice (x ++ y) 0 b = x := by
  subst h
  exact List.take_left

theorem slice_append_of_le {α : Type*} {x y : List α} {a b : ℕ} (h : b ≤ x.length) :
    slice (x ++ y) a b = slice x a b := by
  rcases le_total a x.length with ha | ha
  · rw [slice, slice, List.drop_append_of_le_length ha, List.take_append_of_le_length (by simp; omega)]
  · simp [slice, show b - a = 0 by omega]

theorem slice_isInfixOf {α : Type*} (l : List α) (a b : ℕ) : slice l a b <:+: l :=
  (List.take_prefix _ _).isInfix.trans (List.drop_suffix _ _).isInfix

/-! ## Overwriting -/

section Overwrite

variable {α : Type*} {l new : List α} {i j n : ℕ} {d : α}

def overwrite (l : List α) (i : ℕ) (new : List α) : List α := l.take i ++ new ++ l.drop (i + new.length)

@[simp] theorem length_overwrite (h : i + new.length ≤ l.length) : (overwrite l i new).length = l.length := by
  simp only [overwrite, List.length_append, List.length_take, List.length_drop]
  omega

theorem take_overwrite (hn : i + new.length ≤ n) (h : n ≤ l.length) :
    (overwrite l i new).take n = overwrite (l.take n) i new := by
  have hi : i ≤ n := by omega
  simp only [overwrite, List.take_append, List.take_take, List.drop_take, List.length_take, min_eq_right hi,
    min_eq_left (hi.trans h), List.take_of_length_le (show new.length ≤ n - i by omega), List.length_append,
    min_eq_left hi]

theorem drop_overwrite (hn : n ≤ i) (h : i ≤ l.length) : (overwrite l i new).drop n = overwrite (l.drop n)
    (i - n) new := by
  rw [overwrite, List.append_assoc, List.drop_append_of_le_length (by simp; omega), List.drop_take, overwrite,
    List.append_assoc, List.drop_drop, ← Nat.add_assoc, Nat.add_sub_cancel' hn]

theorem drop_overwrite_of_le (hn : i + new.length ≤ n) (h : i ≤ l.length) :
    (overwrite l i new).drop n = l.drop n := by
  have hlen : (l.take i ++ new).length = i + new.length := by simp; omega
  rw [overwrite, List.drop_append, List.drop_eq_nil_of_le (hlen ▸ hn), List.nil_append, List.drop_drop, hlen,
    Nat.add_sub_cancel' hn]

theorem getD_overwrite (h : i + new.length ≤ l.length) :
    (overwrite l i new).getD j d = if i ≤ j ∧ j < i + new.length then new.getD (j - i) d else l.getD j d := by
  have hi : (l.take i).length = i := by simp; omega
  simp only [List.getD_eq_getElem?_getD, overwrite, List.getElem?_append, List.length_append, hi,
    List.getElem?_take, List.getElem?_drop]
  split_ifs <;> try omega
  · rfl
  · rfl
  · rw [show i + new.length + (j - (i + new.length)) = j by omega]

theorem getElem?_overwrite (h : i + new.length ≤ l.length) :
    (overwrite l i new)[j]? = if i ≤ j ∧ j < i + new.length then new[j - i]? else l[j]? := by
  have hi : (l.take i).length = i := by simp; omega
  simp only [overwrite, List.getElem?_append, List.length_append, hi, List.getElem?_take, List.getElem?_drop]
  split_ifs <;> try omega
  · rfl
  · rfl
  · rw [show i + new.length + (j - (i + new.length)) = j by omega]

/-- Writes to places that do not meet commute. -/
theorem overwrite_comm {new' : List α} {i' : ℕ} (h : i + new.length ≤ l.length) (h' : i' + new'.length ≤ l.length)
    (hd : i + new.length ≤ i' ∨ i' + new'.length ≤ i) :
    overwrite (overwrite l i new) i' new' = overwrite (overwrite l i' new') i new := by
  apply List.ext_getElem?
  intro j
  rw [getElem?_overwrite (by rwa [length_overwrite h]), getElem?_overwrite h,
    getElem?_overwrite (by rwa [length_overwrite h']), getElem?_overwrite h']
  split_ifs <;> first | rfl | omega

/-- Of two writes to one place the second stays. -/
theorem overwrite_overwrite {new' : List α} (h : i + new.length ≤ l.length) (hn : new'.length = new.length) :
    overwrite (overwrite l i new) i new' = overwrite l i new' := by
  apply List.ext_getElem?
  intro j
  rw [getElem?_overwrite (by rwa [length_overwrite h, hn]), getElem?_overwrite h,
    getElem?_overwrite (by rwa [hn]), hn]
  split_ifs <;> rfl

theorem slice_overwrite_of_disjoint {a b : ℕ} (h : i + new.length ≤ l.length)
    (hd : b ≤ i ∨ i + new.length ≤ a) : slice (overwrite l i new) a b = slice l a b := by
  apply List.ext_getElem?
  intro j
  simp only [slice, List.getElem?_take, List.getElem?_drop, getElem?_overwrite h]
  split_ifs <;> first | rfl | omega

theorem slice_overwrite_start {b : ℕ} (h : i + new.length ≤ l.length) (hb : b ≤ i + new.length) :
    slice (overwrite l i new) i b = new.take (b - i) := by
  have hi : (l.take i).length = i := by simp; omega
  rw [slice, overwrite, List.append_assoc, List.drop_append, List.drop_eq_nil_of_le hi.le, List.nil_append, hi,
    Nat.sub_self, List.drop_zero, List.take_append_of_le_length (by omega)]

theorem slice_overwrite_past {b : ℕ} (h : i + new.length ≤ l.length) (hb : i + new.length ≤ b) :
    slice (overwrite l i new) i b = new ++ slice l (i + new.length) b := by
  have hi : (l.take i).length = i := by simp; omega
  rw [slice, overwrite, List.append_assoc, List.drop_append, List.drop_eq_nil_of_le hi.le, List.nil_append, hi,
    Nat.sub_self, List.drop_zero, List.take_append, List.take_of_length_le (by omega), slice, Nat.sub_sub]

theorem slice_overwrite_self {b : ℕ} (h : i + new.length ≤ l.length) (hb : b = i + new.length) :
    slice (overwrite l i new) i b = new := by
  rw [slice_overwrite_start h hb.le, List.take_of_length_le (by omega)]

end Overwrite

end PktKit.Foundations
