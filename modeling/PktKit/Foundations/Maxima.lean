import Mathlib

/-! # The greatest entries of a list

The entries of a list whose key none exceeds, in their order, and how they change when the list grows at its
end.
-/

namespace PktKit.Foundations

variable {α β : Type*} [LinearOrder β] {key : α → β} {l l' : List α} {a b : α}

def maxima (key : α → β) (l : List α) : List α := l.filter fun a => l.all fun b => key b ≤ key a

theorem mem_maxima : a ∈ maxima key l ↔ a ∈ l ∧ ∀ b ∈ l, key b ≤ key a := by
  simp [maxima]

theorem maxima_eq_nil : maxima key l = [] ↔ l = [] := by
  constructor
  · intro h
    by_contra hne
    obtain ⟨a, ha, hmax⟩ := Set.exists_max_image {a | a ∈ l} key l.finite_toSet (List.exists_mem_of_ne_nil l hne)
    exact List.ne_nil_of_mem (mem_maxima.mpr ⟨ha, hmax⟩) h
  · rintro rfl
    rfl

/-- An entry below the greatest changes nothing. -/
theorem maxima_concat_lt (hb : b ∈ maxima key l) (hlt : key a < key b) : maxima key (l ++ [a]) = maxima key l := by
  obtain ⟨hbl, hmax⟩ := mem_maxima.mp hb
  rw [maxima, List.filter_append]
  have ha : [a].filter (fun c => (l ++ [a]).all fun e => key e ≤ key c) = [] := by
    rw [List.filter_eq_nil_iff]
    intro c hc hall
    obtain rfl := List.mem_singleton.mp hc
    have := List.all_eq_true.mp hall b (List.mem_append_left _ hbl)
    exact absurd hlt (not_lt.mpr (by simpa using this))
  rw [ha, List.append_nil, maxima]
  refine List.filter_congr fun c hc => ?_
  rw [Bool.eq_iff_iff, List.all_append, Bool.and_eq_true]
  simp only [List.all_cons, List.all_nil, Bool.and_true, decide_eq_true_eq, and_iff_left_iff_imp]
  intro hall
  have := List.all_eq_true.mp hall b hbl
  exact hlt.le.trans (by simpa using this)

/-- Another of the greatest comes last. -/
theorem maxima_concat_eq (hb : b ∈ maxima key l) (heq : key a = key b) :
    maxima key (l ++ [a]) = maxima key l ++ [a] := by
  obtain ⟨hbl, hmax⟩ := mem_maxima.mp hb
  rw [maxima, List.filter_append]
  congr 1
  · refine List.filter_congr fun c hc => ?_
    rw [Bool.eq_iff_iff, List.all_append, Bool.and_eq_true]
    simp only [List.all_cons, List.all_nil, Bool.and_true, decide_eq_true_eq, and_iff_left_iff_imp]
    intro hall
    have := List.all_eq_true.mp hall b hbl
    exact heq.le.trans (by simpa using this)
  · rw [List.filter_eq_self]
    intro c hc
    obtain rfl := List.mem_singleton.mp hc
    rw [List.all_eq_true]
    intro e he
    rcases List.mem_append.mp he with he | he
    · simpa [heq] using hmax e he
    · obtain rfl := List.mem_singleton.mp he
      simp

/-- A greater entry stands alone. -/
theorem maxima_concat_gt (h : ∀ c ∈ l, key c < key a) : maxima key (l ++ [a]) = [a] := by
  rw [maxima, List.filter_append]
  have hl : l.filter (fun c => (l ++ [a]).all fun e => key e ≤ key c) = [] := by
    rw [List.filter_eq_nil_iff]
    intro c hc hall
    have := List.all_eq_true.mp hall a (by simp)
    exact absurd (h c hc) (not_lt.mpr (by simpa using this))
  rw [hl, List.nil_append, List.filter_eq_self]
  intro c hc
  obtain rfl := List.mem_singleton.mp hc
  rw [List.all_eq_true]
  intro e he
  rcases List.mem_append.mp he with he | he
  · simpa using (h e he).le
  · obtain rfl := List.mem_singleton.mp he
    simp

theorem mem_maxima_of_perm (h : l.Perm l') : a ∈ maxima key l ↔ a ∈ maxima key l' := by
  simp only [mem_maxima, h.mem_iff]

end PktKit.Foundations
