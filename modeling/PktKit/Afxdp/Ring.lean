import Mathlib

/-! # Rings shared with the kernel

A power of two of slots and two free-running 32-bit cursors. The other side may move its cursor after an
operation has loaded it: the operation is given the cursor as it was.
-/

namespace PktKit.Afxdp

structure Ring (α : Type) where
  bits : ℕ
  bits_lt : bits < 32
  slots : ℕ → α
  producer : BitVec 32
  consumer : BitVec 32

namespace Ring

variable {α : Type}

def size (r : Ring α) : ℕ := 2 ^ r.bits

def mask (r : Ring α) : BitVec 32 := BitVec.ofNat 32 (r.size - 1)

def slot (r : Ring α) (idx : BitVec 32) : ℕ := (idx &&& r.mask).toNat

/-- Slots a producer could fill, as far as the consumer had got. -/
def free (r : Ring α) (seen : BitVec 32) : ℕ := r.size - (r.producer - seen).toNat

def push (r : Ring α) (a : α) : Ring α :=
  { r with slots := Function.update r.slots (r.slot r.producer) a, producer := r.producer + 1 }

/-- Enqueue, with how many there was room for. The cursor is published once, after the last write. -/
def produce (r : Ring α) (seen : BitVec 32) (l : List α) : Ring α × ℕ :=
  let n := min (l.length % 2 ^ 32) (r.free seen)
  ((l.take n).foldl push r, n)

def read (r : Ring α) (n : ℕ) : List α :=
  (List.range n).map fun i => r.slots (r.slot (r.consumer + BitVec.ofNat 32 i))

/-- Dequeue at most `max`, as far as the producer had got. -/
def consume (r : Ring α) (seen : BitVec 32) (max : ℕ) : List α × Ring α :=
  let n := min max (seen - r.consumer).toNat
  (r.read n, { r with consumer := r.consumer + BitVec.ofNat 32 n })

/-! ## What a ring holds -/

def used (r : Ring α) : ℕ := (r.producer - r.consumer).toNat

def contents (r : Ring α) : List α := r.read r.used

variable {r : Ring α} {lag : ℕ}

@[simp] theorem length_contents : r.contents.length = r.used := by simp [contents, read]

theorem size_lt : r.size < 2 ^ 32 := Nat.pow_lt_pow_right (by decide) r.bits_lt

theorem slot_add (idx : BitVec 32) (i : ℕ) : r.slot (idx + BitVec.ofNat 32 i) = (idx.toNat + i) % r.size := by
  have hlt := r.size_lt
  have hdvd : r.size ∣ 2 ^ 32 := Nat.pow_dvd_pow 2 r.bits_lt.le
  have hmask : r.mask.toNat = 2 ^ r.bits - 1 := Nat.mod_eq_of_lt (by omega)
  rw [slot, BitVec.toNat_and, hmask, Nat.and_two_pow_sub_one_eq_mod, BitVec.toNat_add, BitVec.toNat_ofNat,
    Nat.add_mod_mod]
  exact Nat.mod_mod_of_dvd _ hdvd

theorem producer_eq : r.producer = r.consumer + BitVec.ofNat 32 r.used := by
  rw [used, BitVec.ofNat_toNat, BitVec.setWidth_eq, add_sub_cancel]

/-- The next slot to fill is none of those in use. -/
theorem slot_producer_ne (hroom : r.used < r.size) {i : ℕ} (hi : i < r.used) :
    r.slot (r.consumer + BitVec.ofNat 32 i) ≠ r.slot r.producer := by
  rw [producer_eq, slot_add, slot_add]
  intro h
  have hmod : i ≡ r.used [MOD r.size] := Nat.ModEq.add_left_cancel' _ h
  exact hi.ne (hmod.eq_of_lt_of_lt (hi.trans hroom) hroom)

theorem used_push (hroom : r.used < r.size) (a : α) : (r.push a).used = r.used + 1 := by
  have hlt := r.size_lt
  rw [used, push, add_sub_right_comm, BitVec.toNat_add, ← used, show (1 : BitVec 32).toNat = 1 from rfl]
  omega

theorem contents_push (hroom : r.used < r.size) (a : α) : (r.push a).contents = r.contents ++ [a] := by
  rw [contents, used_push hroom, read, List.range_succ, List.map_append, contents, read]
  congr 1
  · refine List.map_congr_left fun i hi => ?_
    exact Function.update_of_ne (slot_producer_ne hroom (List.mem_range.mp hi)) _ _
  · have hslot : (r.push a).slot ((r.push a).consumer + BitVec.ofNat 32 r.used) = r.slot r.producer := by
      rw [producer_eq]
      rfl
    rw [List.map_singleton, hslot]
    exact congrArg ([·]) (Function.update_self _ _ _)

theorem pushes {l : List α} (hroom : r.used + l.length ≤ r.size) :
    (l.foldl push r).contents = r.contents ++ l ∧ (l.foldl push r).size = r.size := by
  induction l generalizing r with
  | nil => simp
  | cons a l ih =>
    rw [List.length_cons] at hroom
    have hone : r.used < r.size := by omega
    have hrest : (r.push a).used + l.length ≤ r.size := by
      rw [used_push hone]
      omega
    obtain ⟨hcontents, hsize⟩ := @ih (r.push a) hrest
    refine ⟨?_, hsize⟩
    rw [List.foldl_cons, hcontents, contents_push hone, List.append_assoc]
    rfl

theorem free_eq (hlag : r.used + lag ≤ r.size) :
    r.free (r.consumer - BitVec.ofNat 32 lag) = r.size - (r.used + lag) := by
  have hlt := r.size_lt
  rw [free, sub_sub_eq_add_sub, add_sub_right_comm, BitVec.toNat_add, BitVec.toNat_ofNat, ← used]
  congr 1
  omega

theorem produce_spec {l : List α} (hlag : r.used + lag ≤ r.size) :
    let p := r.produce (r.consumer - BitVec.ofNat 32 lag) l
    p.1.contents = r.contents ++ l.take p.2 ∧ p.1.size = r.size ∧
      p.2 = min (l.length % 2 ^ 32) (r.size - (r.used + lag)) := by
  intro p
  have hn : p.2 = min (l.length % 2 ^ 32) (r.size - (r.used + lag)) := by rw [← free_eq hlag]; rfl
  have hroom : r.used + (l.take p.2).length ≤ r.size := by
    rw [List.length_take, hn]
    omega
  exact ⟨(pushes hroom).1, (pushes hroom).2, hn⟩

theorem toNat_sub {x : BitVec 32} {n : ℕ} (h : n ≤ x.toNat) : (x - BitVec.ofNat 32 n).toNat = x.toNat - n := by
  have hlt := x.isLt
  rw [BitVec.toNat_sub, BitVec.toNat_ofNat]
  omega

theorem consume_spec {m : ℕ} (hlag : lag ≤ r.used) :
    let c := r.consume (r.producer - BitVec.ofNat 32 lag) m
    r.contents = c.1 ++ c.2.contents ∧ c.1.length = min m (r.used - lag) ∧ c.2.size = r.size := by
  rw [consume, sub_right_comm, toNat_sub hlag, ← used]
  generalize hn : min m (r.used - lag) = n
  have hle : n ≤ r.used := by omega
  have hused : ({ r with consumer := r.consumer + BitVec.ofNat 32 n } : Ring α).used = r.used - n := by
    rw [used, ← sub_sub, toNat_sub hle, ← used]
  refine ⟨?_, by simp [read], rfl⟩
  have hsplit : r.used = n + (r.used - n) := by omega
  rw [contents, contents, hused, read, read, read, hsplit, List.range_add, List.map_append,
    List.map_map, Nat.add_sub_cancel_left]
  congr 1
  apply List.map_congr_left
  intro i _
  simp only [Function.comp_apply, BitVec.ofNat_add, ← add_assoc]
  rfl

end Ring

end PktKit.Afxdp
