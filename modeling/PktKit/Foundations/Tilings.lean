import Mathlib

/-! # Tilings of an interval

A list of nonempty pieces, each with a start and a stop, that lie end to end. A
stretch of a tiling may be replaced by any tiling of the same interval.
-/

namespace PktKit.Foundations.Tilings

variable {β : Type*} (start stop : β → ℕ)

/-- The pieces lie end to end from `a` to `b`, none of them empty. -/
def Tiles : ℕ → List β → ℕ → Prop
  | a, [], b => a = b
  | a, x :: xs, b => start x = a ∧ start x < stop x ∧ Tiles (stop x) xs b

variable {start stop} {a b c : ℕ} {x : β} {xs ys zs : List β}

@[simp] theorem tiles_nil : Tiles start stop a [] b ↔ a = b := Iff.rfl

@[simp] theorem tiles_cons :
    Tiles start stop a (x :: xs) b ↔ start x = a ∧ start x < stop x ∧ Tiles start stop (stop x) xs b :=
  Iff.rfl

theorem tiles_append :
    Tiles start stop a (xs ++ ys) b ↔ ∃ c, Tiles start stop a xs c ∧ Tiles start stop c ys b := by
  induction xs generalizing a with
  | nil => simp
  | cons x xs ih => simp only [List.cons_append, tiles_cons, ih]; grind

theorem Tiles.le (h : Tiles start stop a xs b) : a ≤ b := by
  induction xs generalizing a with
  | nil => exact Nat.le_of_eq h
  | cons x xs ih =>
    obtain ⟨h1, h2, h3⟩ := h
    have := ih h3
    omega

theorem Tiles.mem_bounds (h : Tiles start stop a xs b) (hx : x ∈ xs) :
    a ≤ start x ∧ start x < stop x ∧ stop x ≤ b := by
  obtain ⟨pre, post, rfl⟩ := List.append_of_mem hx
  obtain ⟨c, h1, h2, h3, h4⟩ := tiles_append.mp h
  have h5 := h1.le
  have h6 := h4.le
  omega

/-- What the pieces before and after a stretch do not reach into. -/
theorem Tiles.split (h : Tiles start stop a (xs ++ ys ++ zs) b) :
    ∃ c d, Tiles start stop a xs c ∧ Tiles start stop c ys d ∧ Tiles start stop d zs b := by
  obtain ⟨d, h1, h2⟩ := tiles_append.mp h
  obtain ⟨c, h3, h4⟩ := tiles_append.mp h1
  exact ⟨c, d, h3, h4, h2⟩

theorem Tiles.join {d : ℕ} (h1 : Tiles start stop a xs c) (h2 : Tiles start stop c ys d)
    (h3 : Tiles start stop d zs b) : Tiles start stop a (xs ++ ys ++ zs) b :=
  tiles_append.mpr ⟨d, tiles_append.mpr ⟨c, h1, h2⟩, h3⟩

/-- Earlier pieces end before later ones start. -/
theorem Tiles.pairwise (h : Tiles start stop a xs b) : xs.Pairwise fun x y => stop x ≤ start y := by
  induction xs generalizing a with
  | nil => exact .nil
  | cons x xs ih => exact .cons (fun y hy => (h.2.2.mem_bounds hy).1) (ih h.2.2)

theorem Tiles.cover {j : ℕ} (h : Tiles start stop a xs b) (ha : a ≤ j) (hb : j < b) :
    ∃ x ∈ xs, start x ≤ j ∧ j < stop x := by
  induction xs generalizing a with
  | nil =>
    have : a = b := h
    omega
  | cons x xs ih =>
    obtain ⟨hx, -, hrest⟩ := h
    by_cases hj : j < stop x
    · exact ⟨x, List.mem_cons_self, by omega, hj⟩
    · obtain ⟨y, hy, hyj⟩ := ih hrest (by omega)
      exact ⟨y, List.mem_cons_of_mem x hy, hyj⟩

theorem Tiles.unique {j : ℕ} {y : β} (h : Tiles start stop a xs b) (hx : x ∈ xs) (hy : y ∈ xs)
    (hx1 : start x ≤ j) (hx2 : j < stop x) (hy1 : start y ≤ j) (hy2 : j < stop y) : x = y := by
  induction xs generalizing a with
  | nil => cases hx
  | cons z xs ih =>
    obtain ⟨-, -, hrest⟩ := h
    rcases List.mem_cons.mp hx with rfl | hxs
    · rcases List.mem_cons.mp hy with rfl | hys
      · rfl
      · have := (hrest.mem_bounds hys).1
        omega
    · rcases List.mem_cons.mp hy with rfl | hys
      · have := (hrest.mem_bounds hxs).1
        omega
      · exact ih hrest hxs hys

theorem Tiles.sum_length (h : Tiles start stop a xs b) :
    a + (xs.map fun x => stop x - start x).sum = b := by
  induction xs generalizing a with
  | nil => simpa using h
  | cons x xs ih =>
    obtain ⟨h1, h2, h3⟩ := h
    have := ih h3
    simp only [List.map_cons, List.sum_cons]
    omega

/-- A place parts the pieces: those before it, one it lies strictly inside of if there is one, and those
after. -/
theorem Tiles.cut_at (h : Tiles start stop a xs b) (m : ℕ) :
    ∃ ls ms ns, xs = ls ++ (ms ++ ns) ∧ (∀ x ∈ ls, stop x ≤ m) ∧ (∀ x ∈ ms, start x < m ∧ m < stop x) ∧
      ∀ x ∈ ns, m ≤ start x := by
  induction xs generalizing a with
  | nil => exact ⟨[], [], [], rfl, by simp, by simp, by simp⟩
  | cons x xs ih =>
    obtain ⟨-, hlt, hrest⟩ := h
    by_cases hbelow : stop x ≤ m
    · obtain ⟨ls, ms, ns, rfl, hl, hm, hn⟩ := ih hrest
      exact ⟨x :: ls, ms, ns, rfl, List.forall_mem_cons.mpr ⟨hbelow, hl⟩, hm, hn⟩
    · have hafter : ∀ y ∈ xs, m ≤ start y := fun y hy => by
        have := (hrest.mem_bounds hy).1
        omega
      by_cases hin : start x < m
      · exact ⟨[], [x], xs, rfl, by simp, by simpa using ⟨hin, by omega⟩, hafter⟩
      · exact ⟨[], [], x :: xs, rfl, by simp, by simp, List.forall_mem_cons.mpr ⟨by omega, hafter⟩⟩

/-- Pieces that start before a place come first. -/
theorem Tiles.takeWhile_start (h : Tiles start stop a xs b) (m : ℕ) :
    xs.takeWhile (fun x => decide (start x < m)) = xs.filter fun x => decide (start x < m) := by
  induction xs generalizing a with
  | nil => rfl
  | cons x xs ih =>
    obtain ⟨-, hlt, hrest⟩ := h
    by_cases hx : start x < m
    · rw [List.takeWhile_cons_of_pos (by simpa using hx), List.filter_cons_of_pos (by simpa using hx), ih hrest]
    · have hnone : (x :: xs).filter (fun x => decide (start x < m)) = [] := by
        refine List.filter_eq_nil_iff.mpr (List.forall_mem_cons.mpr ⟨by simpa using hx, fun y hy => ?_⟩)
        have := (hrest.mem_bounds hy).1
        rw [decide_eq_true_eq]
        omega
      rw [List.takeWhile_cons_of_neg (by simpa using hx), hnone]

theorem Tiles.end_unique (h : Tiles start stop a xs b) (h' : Tiles start stop a xs c) : b = c := by
  induction xs generalizing a with
  | nil => exact h.symm.trans h'
  | cons x xs ih => exact ih h.2.2 h'.2.2

theorem Tiles.stop_lt (h : Tiles start stop a xs b) (hx : x ∈ xs.dropLast) : stop x < b := by
  have hne : xs ≠ [] := fun h => by simp [h] at hx
  rw [← List.dropLast_concat_getLast hne] at h
  obtain ⟨c, hinit, hlast, hpos, hend⟩ := tiles_append.mp h
  have hle := (hinit.mem_bounds hx).2.2
  have : stop (xs.getLast hne) = b := hend
  omega

theorem Tiles.stop_getLast (h : Tiles start stop a xs b) (hx : xs.getLast? = some x) : stop x = b := by
  obtain ⟨ys, rfl⟩ := List.getLast?_eq_some_iff.mp hx
  obtain ⟨c, -, -, -, hend⟩ := tiles_append.mp h
  exact hend

theorem Tiles.map_add {γ : Type*} {start' stop' : γ → ℕ} {f : β → γ} {n : ℕ} (h : Tiles start stop a xs b)
    (hstart : ∀ x ∈ xs, start' (f x) = n + start x) (hstop : ∀ x ∈ xs, stop' (f x) = n + stop x) :
    Tiles start' stop' (n + a) (xs.map f) (n + b) := by
  induction xs generalizing a with
  | nil => exact congrArg (n + ·) h
  | cons x xs ih =>
    obtain ⟨hx, hlt, hrest⟩ := h
    have hs := hstart x List.mem_cons_self
    have he := hstop x List.mem_cons_self
    refine ⟨by omega, by omega, ?_⟩
    rw [he]
    exact ih hrest (fun y hy => hstart y (List.mem_cons_of_mem x hy)) fun y hy =>
      hstop y (List.mem_cons_of_mem x hy)

end PktKit.Foundations.Tilings
