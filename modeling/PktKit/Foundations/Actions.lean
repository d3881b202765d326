import Mathlib

/-! # Actions

Computations with a state that may fail and keep what they changed before. `wp m Q E s` says that `m`
started in `s` ends in `Q` if it returns and in `E` if it fails; one rule for each way to build an
action takes it apart.
-/

namespace PktKit.Foundations.Actions

variable {ε σ α β : Type} {m : EStateM ε σ α} {f : α → EStateM ε σ β} {s t : σ} {a : α} {b : β} {e : ε}
  {Q Q' : α → σ → Prop} {E E' : ε → σ → Prop}

def wp (m : EStateM ε σ α) (Q : α → σ → Prop) (E : ε → σ → Prop) (s : σ) : Prop :=
  match m s with
  | .ok a t => Q a t
  | .error e t => E e t

@[simp] theorem wp_pure : wp (pure a) Q E s = Q a s := rfl

@[simp] theorem wp_throw : wp (throw e : EStateM ε σ α) Q E s = E e s := rfl

@[simp] theorem wp_get {Q : σ → σ → Prop} : wp (get : EStateM ε σ σ) Q E s = Q s s := rfl

@[simp] theorem wp_set {Q : PUnit → σ → Prop} : wp (set t : EStateM ε σ PUnit) Q E s = Q ⟨⟩ t := rfl

@[simp] theorem wp_modify {g : σ → σ} {Q : PUnit → σ → Prop} :
    wp (modify g : EStateM ε σ PUnit) Q E s = Q ⟨⟩ (g s) := rfl

@[simp] theorem wp_bind {Q : β → σ → Prop} : wp (m >>= f) Q E s = wp m (fun a t => wp (f a) Q E t) E s := by
  simp only [wp, bind, EStateM.bind]
  cases m s <;> rfl

@[simp] theorem wp_ite {c : Prop} [Decidable c] {m' : EStateM ε σ α} :
    wp (if c then m else m') Q E s ↔ (c → wp m Q E s) ∧ (¬ c → wp m' Q E s) := by
  split
  · next h => exact ⟨fun hm => ⟨fun _ => hm, fun hn => absurd h hn⟩, fun hm => hm.1 h⟩
  · next h => exact ⟨fun hm => ⟨fun hc => absurd hc h, fun _ => hm⟩, fun hm => hm.2 h⟩

@[simp] theorem wp_ofExcept {r : Except ε α} : wp (ofExcept r : EStateM ε σ α) Q E s ↔
    (∀ a, r = .ok a → Q a s) ∧ (∀ e, r = .error e → E e s) := by
  cases r with
  | ok a => simp [wp, ofExcept, pure, EStateM.pure]
  | error e => simp [wp, ofExcept, throw, throwThe, MonadExceptOf.throw, EStateM.throw]

@[simp] theorem wp_discard {Q : PUnit → σ → Prop} : wp (discard m) Q E s = wp m (fun _ t => Q ⟨⟩ t) E s := by
  simp only [wp, discard, Functor.discard, Functor.mapConst, Function.comp, EStateM.map]
  cases m s <;> rfl

theorem wp_mono (hQ : ∀ a t, Q a t → Q' a t) (hE : ∀ e t, E e t → E' e t) (h : wp m Q E s) : wp m Q' E' s := by
  simp only [wp] at h ⊢
  cases hm : m s with
  | ok a t =>
    rw [hm] at h
    exact hQ a t h
  | error e t =>
    rw [hm] at h
    exact hE e t h

theorem wp_of_ok (h : m s = .ok a t) : wp m Q E s = Q a t := by
  simp only [wp, h]

/-- An action that cannot fail returns. -/
theorem exists_ok_of_wp (h : wp m Q (fun _ _ => False) s) : ∃ a t, m s = .ok a t ∧ Q a t := by
  simp only [wp] at h
  cases hm : m s with
  | ok a t =>
    rw [hm] at h
    exact ⟨a, t, rfl, h⟩
  | error e t =>
    rw [hm] at h
    exact h.elim

/-! ## Results -/

/-- The action returned, with a value and a state that pass the test. -/
def returns (p : α → σ → Bool) : EStateM.Result ε σ α → Bool
  | .ok a t => p a t
  | .error .. => false

def failure : EStateM.Result ε σ α → Option ε
  | .ok .. => none
  | .error e _ => some e

variable {r : EStateM.Result ε σ α}

theorem returns_eq_true {p : α → σ → Bool} : returns p r = true ↔ ∃ a t, r = .ok a t ∧ p a t = true := by
  cases r <;> simp [returns]

theorem failure_eq_some : failure r = some e ↔ ∃ t, r = .error e t := by
  cases r <;> simp [failure]

/-! ## Computations without a state -/

theorem except_bind_ok {x : Except ε α} {g : α → Except ε β} : x >>= g = .ok b ↔ ∃ a, x = .ok a ∧ g a = .ok b := by
  cases x <;> simp [bind, Except.bind]

theorem except_guard_ok {c : Prop} [Decidable c] {x : Except ε β} {g : PUnit → Except ε β} :
    (if c then throw e >>= g else x) = .ok b ↔ ¬ c ∧ x = .ok b := by
  by_cases hc : c <;> simp [hc, throw, throwThe, MonadExceptOf.throw, bind, Except.bind]

end PktKit.Foundations.Actions
