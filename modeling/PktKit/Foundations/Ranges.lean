import Mathlib

/-! # Lists ordered by a relation

A list whose elements stand in a relation pairwise falls apart into a front and
a back at every cut the relation respects. A sorted map is such a list, and a
range query on it is such a cut.
-/

namespace PktKit.Foundations.Ranges

variable {β : Type*} {R : β → β → Prop} {l : List β}

/-- A predicate that holds of everything before an element it holds of cuts the list in two. -/
theorem filter_append_filter_not (P : β → Bool) (h : l.Pairwise R)
    (hP : ∀ x y, R x y → P y = true → P x = true) :
    l.filter P ++ l.filter (fun x => !P x) = l := by
  induction l with
  | nil => rfl
  | cons x xs ih =>
    obtain ⟨hx, hxs⟩ := List.pairwise_cons.mp h
    cases hPx : P x with
    | true => simpa [hPx] using ih hxs
    | false =>
      -- nothing after `x` satisfies `P` either
      have hnone : ∀ y ∈ xs, P y = false := by
        intro y hy
        by_contra hPy
        have := hP x y (hx y hy) (by simpa using hPy)
        simp [hPx] at this
      have hback : xs.filter (fun x => !P x) = xs := by
        rw [List.filter_eq_self]
        intro y hy
        simp [hnone y hy]
      have hfront : xs.filter P = [] := by
        rw [List.filter_eq_nil_iff]
        intro y hy
        simp [hnone y hy]
      simp [hPx, hback, hfront]

/-- Where the relation rules `Q` out for all but the last element, filtering by `Q` asks only the
last element. -/
theorem filter_eq_getLast? (Q : β → Bool) (h : l.Pairwise R)
    (hQ : ∀ x y, y ∈ l → R x y → Q x = false) :
    l.filter Q = l.getLast?.toList.filter Q := by
  rcases List.eq_nil_or_concat l with rfl | ⟨init, x, rfl⟩
  · rfl
  · have hinit : init.filter Q = [] := by
      rw [List.filter_eq_nil_iff]
      intro y hy
      have hyx : R y x := (List.pairwise_append.mp (by simpa using h)).2.2 y hy x (by simp)
      simp [hQ y x (by simp) hyx]
    simp [hinit]

end PktKit.Foundations.Ranges
