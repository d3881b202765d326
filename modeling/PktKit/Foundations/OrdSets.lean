import Mathlib

/-! # Sets as ordered lists

A set of a linear order kept as the list of its elements in increasing order, the
least first.
-/

namespace PktKit.Foundations.OrdSets

variable {β : Type*} [LinearOrder β] {l : List β} {k x : β}

def put (k : β) (l : List β) : List β := l.filter (· < k) ++ k :: l.filter (k < ·)

def remove (k : β) (l : List β) : List β := l.filter (· ≠ k)

@[simp] theorem mem_put : x ∈ put k l ↔ x = k ∨ x ∈ l := by
  simp only [put, List.mem_append, List.mem_filter, List.mem_cons, decide_eq_true_eq]
  rcases lt_trichotomy x k with h | h | h
  · simp [h, h.ne, h.not_gt]
  · simp [h]
  · simp [h, h.ne', h.not_gt]

@[simp] theorem mem_remove : x ∈ remove k l ↔ x ∈ l ∧ x ≠ k := by simp [remove]

theorem sorted_put (h : l.Pairwise (· < ·)) : (put k l).Pairwise (· < ·) := by
  refine List.pairwise_append.mpr ⟨h.filter _, List.pairwise_cons.mpr ⟨?_, h.filter _⟩, ?_⟩
  · simp
  · simp only [List.mem_filter, List.mem_cons, decide_eq_true_eq]
    rintro a ⟨-, ha⟩ b (rfl | ⟨-, hb⟩)
    · exact ha
    · exact ha.trans hb

theorem sorted_remove (h : l.Pairwise (· < ·)) : (remove k l).Pairwise (· < ·) := h.filter _

end PktKit.Foundations.OrdSets
