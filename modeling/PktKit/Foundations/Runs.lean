import Mathlib

/-! # Runs of a step function

A step may be impossible in a state (`none`); a run is a list of inputs all of
whose steps are possible. What every step preserves, every run preserves.
-/

namespace PktKit.Foundations.Runs

variable {σ ι : Type*} {step : σ → ι → Option σ} {s t u : σ} {i : ι} {is js : List ι}

/-- Take the steps of a list of inputs one after the other. -/
def run (step : σ → ι → Option σ) : σ → List ι → Option σ
  | s, [] => some s
  | s, i :: is => (step s i).bind (run step · is)

@[simp] theorem run_nil : run step s [] = some s := rfl

theorem run_cons : run step s (i :: is) = some u ↔ ∃ t, step s i = some t ∧ run step t is = some u := by
  simp [run, Option.bind_eq_some_iff]

theorem run_append :
    run step s (is ++ js) = some u ↔ ∃ t, run step s is = some t ∧ run step t js = some u := by
  induction is generalizing s with
  | nil => simp [run]
  | cons i is ih => simp only [List.cons_append, run_cons, ih]; grind

/-- The invariant rule: one lemma about a step gives the whole run. -/
theorem run_invariant {P : σ → Prop} (hstep : ∀ s i t, P s → step s i = some t → P t)
    (h : run step s is = some u) (hs : P s) : P u := by
  induction is generalizing s with
  | nil => exact Option.some.inj h ▸ hs
  | cons i is ih =>
    obtain ⟨t, ht, htu⟩ := run_cons.mp h
    exact ih htu (hstep s i t hs ht)

/-- The invariant rule for runs whose inputs each meet a condition on the state they are given in. -/
theorem run_invariant_of {P : σ → Prop} {C : σ → ι → Prop}
    (hstep : ∀ s i t, P s → C s i → step s i = some t → P t)
    (h : run step s is = some u) (hs : P s)
    (hC : ∀ js i ks t, is = js ++ i :: ks → run step s js = some t → C t i) : P u := by
  induction is generalizing s with
  | nil => exact Option.some.inj h ▸ hs
  | cons i is ih =>
    obtain ⟨t, ht, htu⟩ := run_cons.mp h
    refine ih htu (hstep s i t hs (hC [] i is s rfl rfl) ht) ?_
    intro js j ks v he hv
    exact hC (i :: js) j ks v (by rw [he]; rfl) (run_cons.mpr ⟨t, ht, hv⟩)

/-- Two step functions that agree where a condition is met take the same runs whose inputs all meet it. -/
theorem run_agree_of {P : σ → Prop} {C : σ → ι → Prop} {step' : σ → ι → Option σ}
    (hstep : ∀ s i t, P s → step s i = some t → P t) (heq : ∀ s i, P s → C s i → step' s i = step s i)
    (h : run step s is = some u) (hs : P s)
    (hC : ∀ js i ks t, is = js ++ i :: ks → run step s js = some t → C t i) : run step' s is = some u := by
  induction is generalizing s with
  | nil => exact h
  | cons i is ih =>
    obtain ⟨t, ht, htu⟩ := run_cons.mp h
    refine run_cons.mpr ⟨t, (heq s i hs (hC [] i is s rfl rfl)).trans ht, ih htu (hstep s i t hs ht) ?_⟩
    intro js j ks v he hv
    exact hC (i :: js) j ks v (by rw [he]; rfl) (run_cons.mpr ⟨t, ht, hv⟩)

/-- Where a condition on the inputs is what a step needs to keep an invariant, and what it must have
met if `P` holds after it, `P` holds all along exactly the runs whose inputs meet it. -/
theorem run_states_iff {I P : σ → Prop} {C : σ → ι → Prop} (hP : ∀ s, I s → P s)
    (hstep : ∀ s i t, I s → C s i → step s i = some t → I t)
    (hC : ∀ s i t, I s → step s i = some t → P t → C s i)
    (h : run step s is = some u) (hs : I s) :
    (∀ js ks t, is = js ++ ks → run step s js = some t → P t) ↔
      ∀ js i ks t, is = js ++ i :: ks → run step s js = some t → C t i := by
  constructor
  · intro hall
    induction is generalizing s with
    | nil =>
      intro js i ks t hjs
      simp at hjs
    | cons i is ih =>
      obtain ⟨t, ht, htu⟩ := run_cons.mp h
      have hpt : P t := hall [i] is t rfl (run_cons.mpr ⟨t, ht, rfl⟩)
      have hci : C s i := hC s i t hs ht hpt
      intro js j ks v hjs hv
      cases js with
      | nil =>
        obtain ⟨rfl, rfl⟩ := List.cons.inj hjs
        exact Option.some.inj hv ▸ hci
      | cons j' js =>
        obtain ⟨rfl, rfl⟩ := List.cons.inj hjs
        obtain ⟨t', ht', htv⟩ := run_cons.mp hv
        obtain rfl := Option.some.inj (ht.symm.trans ht')
        exact ih htu (hstep s i t hs hci ht)
          (fun as bs w he hw => hall (i :: as) bs w (by rw [he]; rfl) (run_cons.mpr ⟨t, ht, hw⟩)) js j ks v rfl htv
  · intro hall js ks t hjs ht
    refine hP t (run_invariant_of hstep ht hs ?_)
    intro as i bs v hv
    exact hall as i (bs ++ ks) v (by rw [hjs, hv]; simp)

/-- Whether every input meets a condition in the state it is given in. -/
def along (step : σ → ι → Option σ) (C : σ → ι → Prop) [∀ s i, Decidable (C s i)] : σ → List ι → Bool
  | _, [] => true
  | s, i :: is => decide (C s i) && (step s i).all (along step C · is)

theorem along_sound {C : σ → ι → Prop} [∀ s i, Decidable (C s i)] (h : along step C s is = true) :
    ∀ js i ks t, is = js ++ i :: ks → run step s js = some t → C t i := by
  intro js i ks t hi ht
  induction js generalizing s is with
  | nil =>
    obtain rfl := Option.some.inj ht
    subst hi
    simp only [List.nil_append, along, Bool.and_eq_true, decide_eq_true_eq] at h
    exact h.1
  | cons j js ih =>
    obtain ⟨u, hu, hut⟩ := run_cons.mp ht
    subst hi
    simp only [List.cons_append, along, hu, Option.all_some, Bool.and_eq_true] at h
    exact ih h.2 rfl hut

/-- A computation that returns, and what is decided of the value it returns. -/
theorem exists_of_any {o : Option σ} {P Q : σ → Prop} [DecidablePred P] (h : o.any (fun s => decide (P s)) = true)
    (hQ : ∀ s, o = some s → P s → Q s) : ∃ s, o = some s ∧ Q s := by
  obtain ⟨s, hs, hd⟩ := (Option.any_eq_true _ _).mp h
  exact ⟨s, hs, hQ s hs (of_decide_eq_true hd)⟩

end PktKit.Foundations.Runs
