import Mathlib

/-! # Fragments of a stream

A fragment is a list together with the position of the stream it was cut from.
Cutting a fragment again, joining two that touch and letting the stream grow all
keep the agreement with the stream.
-/

namespace PktKit.Foundations.Fragments

variable {α : Type*} {s t d e : List α} {k n : ℕ}

def Frag (s : List α) (k : ℕ) (d : List α) : Prop := d <+: s.drop k

theorem Frag.nil (s : List α) (k : ℕ) : Frag s k [] := List.nil_prefix

theorem Frag.length_le (h : Frag s k d) : d.length ≤ s.length - k := by
  simpa using List.IsPrefix.length_le h

theorem frag_take_drop (s : List α) (k n : ℕ) : Frag s k ((s.drop k).take n) := List.take_prefix _ _

theorem Frag.take (h : Frag s k d) (n : ℕ) : Frag s k (d.take n) := (List.take_prefix n d).trans h

theorem Frag.drop (h : Frag s k d) (n : ℕ) : Frag s (k + n) (d.drop n) := by
  obtain ⟨r, hr⟩ := h
  rw [Frag, ← List.drop_drop, ← hr, List.drop_append]
  exact List.prefix_append _ _

theorem Frag.append (h : Frag s k d) (h' : Frag s (k + d.length) e) : Frag s k (d ++ e) := by
  obtain ⟨r, hr⟩ := h
  rw [Frag, ← List.drop_drop, ← hr, List.drop_left] at h'
  rw [Frag, ← hr]
  exact (List.prefix_append_right_inj d).mpr h'

/-- The agreement survives growth of the stream. -/
theorem Frag.mono (h : Frag s k d) (hst : s <+: t) : Frag t k d := by
  obtain ⟨r, rfl⟩ := hst
  refine h.trans ?_
  rw [List.drop_append]
  exact List.prefix_append _ _

/-! ## Reading by position -/

def Reads (f : ℕ → Option α) (k : ℕ) (d : List α) : Prop := ∀ i < d.length, d[i]? = f (k + i)

variable {f : ℕ → Option α}

theorem Reads.nil (f : ℕ → Option α) (k : ℕ) : Reads f k [] := fun _ hi => absurd hi (Nat.not_lt_zero _)

theorem Reads.append (h : Reads f k d) (h' : Reads f (k + d.length) e) : Reads f k (d ++ e) := by
  intro i hi
  rcases Nat.lt_or_ge i d.length with hlt | hge
  · rw [List.getElem?_append_left hlt]
    exact h i hlt
  · have hi' := h' (i - d.length) (by rw [List.length_append] at hi; omega)
    rw [List.getElem?_append_right hge, hi', Nat.add_assoc, Nat.add_sub_cancel' hge]

theorem Reads.drop (h : Reads f k d) (n : ℕ) : Reads f (k + n) (d.drop n) := by
  intro i hi
  have hi' := h (n + i) (by rw [List.length_drop] at hi; omega)
  rw [List.getElem?_drop, hi', Nat.add_assoc]

theorem Reads.take (h : Reads f k d) (n : ℕ) : Reads f k (d.take n) := by
  intro i hi
  rw [List.length_take] at hi
  rw [List.getElem?_take_of_lt (by omega)]
  exact h i (by omega)

theorem frag_iff_reads : Frag s k d ↔ Reads (fun o => s[o]?) k d := by
  simp only [Frag, Reads, List.prefix_iff_getElem?, List.getElem?_drop]
  refine forall₂_congr fun i hi => ?_
  rw [List.getElem?_eq_getElem hi]
  exact eq_comm

theorem Frag.prefix_of_zero (h : Frag s 0 d) : d <+: s := by simpa [Frag] using h

end PktKit.Foundations.Fragments
