import Mathlib

/-! # Histories

A list to which things are added at its end, each of which may say something of what was there before
it.
-/

namespace PktKit.Foundations.Histories

variable {α : Type*} {R : List α → α → Prop} {l : List α} {a : α}

/-- Everything in the list stands to what comes before it as `R` says. -/
def Every (R : List α → α → Prop) (l : List α) : Prop := ∀ pre a post, l = pre ++ a :: post → R pre a

theorem every_nil : Every R [] := by
  intro pre a post h
  simp at h

theorem every_snoc : Every R (l ++ [a]) ↔ Every R l ∧ R l a := by
  constructor
  · intro h
    exact ⟨fun pre b post he => h pre b (post ++ [a]) (by simp [he]), h l a [] rfl⟩
  · rintro ⟨hl, ha⟩ pre b post he
    rcases List.eq_nil_or_concat post with rfl | ⟨post, c, rfl⟩
    · obtain ⟨rfl, hb⟩ := List.append_inj' he rfl
      cases hb
      exact ha
    · rw [List.concat_eq_append, ← List.cons_append, ← List.append_assoc] at he
      obtain ⟨rfl, -⟩ := List.append_inj' he rfl
      exact hl pre b post rfl

end PktKit.Foundations.Histories
