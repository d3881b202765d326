import PktKit.Vtcp.Scoreboard.Basic

/-! # The windowed minimum

Three samples of the window are kept, none of which is larger than one given after it. When the first of
them leaves the window, the next takes its place.
-/

namespace PktKit.Vtcp.WindowedMin

/-- What `update` returns. -/
def returned (m : WindowedMin) (win t v : ℕ) : ℕ :=
  if !m.set || v ≤ m.s0.2 || win < t - m.s2.1 then v else (m.update win t v).s0.2

/-- The calls for a sequence of samples, each with its time, made one after the other. -/
def after (win : ℕ) (samples : List (ℕ × ℕ)) : WindowedMin :=
  samples.foldl (fun m x => m.update win x.1 x.2) {}

/-- A sample of the sequence with none smaller given after it. -/
def Lowest (samples : List (ℕ × ℕ)) (x : ℕ × ℕ) : Prop :=
  ∃ pre post, samples = pre ++ x :: post ∧ ∀ y ∈ post, x.2 ≤ y.2

variable {samples : List (ℕ × ℕ)} {x y a b c : ℕ × ℕ} {win : ℕ} {m : WindowedMin}

theorem lowest_last : Lowest (samples ++ [x]) x := by
  refine ⟨samples, [], rfl, ?_⟩
  intro y hy
  cases hy

theorem Lowest.snoc (h : Lowest samples x) (hle : x.2 ≤ y.2) : Lowest (samples ++ [y]) x := by
  obtain ⟨pre, post, rfl, hpost⟩ := h
  refine ⟨pre, post ++ [y], by simp, ?_⟩
  intro z hz
  rcases List.mem_append.mp hz with hz | hz
  · exact hpost z hz
  · rw [List.mem_singleton.mp hz]
    exact hle

/-! ## The three samples -/

/-- Three samples in order of time and of value, all at most as late and as large as `x`. -/
structure Chain (samples : List (ℕ × ℕ)) (x a b c : ℕ × ℕ) : Prop where
  first : Lowest samples a
  second : Lowest samples b
  third : Lowest samples c
  times : a.1 ≤ b.1 ∧ b.1 ≤ c.1 ∧ c.1 ≤ x.1
  values : a.2 ≤ b.2 ∧ b.2 ≤ c.2 ∧ c.2 ≤ x.2

theorem chain_last : Chain (samples ++ [x]) x x x x :=
  ⟨lowest_last, lowest_last, lowest_last, ⟨le_rfl, le_rfl, le_rfl⟩, ⟨le_rfl, le_rfl, le_rfl⟩⟩

/-- The first sample goes, and the newest comes in as the last. -/
theorem Chain.shift (h : Chain (samples ++ [x]) x a b c) : Chain (samples ++ [x]) x b c x :=
  ⟨h.second, h.third, lowest_last, ⟨h.times.2.1, h.times.2.2, le_rfl⟩, ⟨h.values.2.1, h.values.2.2, le_rfl⟩⟩

/-- The newest sample takes the place of the last. -/
theorem Chain.renew (h : Chain (samples ++ [x]) x a b c) : Chain (samples ++ [x]) x a b x :=
  ⟨h.first, h.second, lowest_last, ⟨h.times.1, h.times.2.1.trans h.times.2.2, le_rfl⟩,
    ⟨h.values.1, h.values.2.1.trans h.values.2.2, le_rfl⟩⟩

/-- The newest sample takes the place of both later ones. -/
theorem Chain.spread (h : Chain (samples ++ [x]) x a b c) : Chain (samples ++ [x]) x a x x :=
  ⟨h.first, lowest_last, lowest_last, ⟨h.times.1.trans (h.times.2.1.trans h.times.2.2), le_rfl, le_rfl⟩,
    ⟨h.values.1.trans (h.values.2.1.trans h.values.2.2), le_rfl, le_rfl⟩⟩

/-- A sample larger than the first replaces the samples it undercuts. -/
theorem Chain.place (h : Chain samples x a b c) (ht : x.1 ≤ y.1) (ha : a.2 < y.2) :
    Chain (samples ++ [y]) y a (if y.2 ≤ b.2 then y else b)
      (if y.2 ≤ b.2 then y else if y.2 ≤ c.2 then y else c) := by
  obtain ⟨hfirst, hsecond, hthird, ⟨hab, hbc, hcx⟩, ⟨vab, vbc, -⟩⟩ := h
  have hay := hfirst.snoc ha.le
  by_cases hb : y.2 ≤ b.2
  · simp only [if_pos hb]
    exact ⟨hay, lowest_last, lowest_last, ⟨by omega, le_rfl, le_rfl⟩, ⟨ha.le, le_rfl, le_rfl⟩⟩
  simp only [if_neg hb]
  have hby := hsecond.snoc (not_le.mp hb).le
  split
  · exact ⟨hay, hby, lowest_last, ⟨hab, by omega, le_rfl⟩, ⟨vab, (not_le.mp hb).le, le_rfl⟩⟩
  · next hc =>
    exact ⟨hay, hby, hthird.snoc (not_le.mp hc).le, ⟨hab, hbc, hcx.trans ht⟩, ⟨vab, vbc, (not_le.mp hc).le⟩⟩

/-! ## Calls -/

/-- What is kept once the newest sample is `x`. -/
structure Kept (win : ℕ) (samples : List (ℕ × ℕ)) (x : ℕ × ℕ) (m : WindowedMin) : Prop
    extends Chain samples x m.s0 m.s1 m.s2 where
  set : m.set = true
  recent : x.1 - m.s0.1 ≤ win

theorem kept_last : Kept win (samples ++ [x]) x { s0 := x, s1 := x, s2 := x, set := true } :=
  ⟨chain_last, rfl, by simp⟩

theorem Kept.update (h : Kept win samples x m) (ht : x.1 ≤ y.1) :
    Kept win (samples ++ [y]) y (m.update win y.1 y.2) := by
  unfold WindowedMin.update
  split
  · exact kept_last
  next hcond =>
  simp only [Bool.or_eq_true, decide_eq_true_eq, not_or, not_le, not_lt] at hcond
  obtain ⟨⟨-, hlow⟩, hold⟩ := hcond
  have hplace := h.place ht hlow
  -- what the sample leaves of the three before their ages are looked at
  generalize hb : (if y.2 ≤ m.s1.2 then y else m.s1) = b at hplace
  generalize hc : (if y.2 ≤ m.s1.2 then y else if y.2 ≤ m.s2.2 then y else m.s2) = c at hplace
  have hcold : y.1 - c.1 ≤ win := by
    rw [← hc]
    split_ifs <;> omega
  have hm : (if y.2 ≤ m.s1.2 then { m with s1 := y, s2 := y }
      else if y.2 ≤ m.s2.2 then { m with s2 := y } else m) = { m with s1 := b, s2 := c } := by
    rw [← hb, ← hc]
    split_ifs <;> rfl
  simp only [Prod.mk.eta, hm]
  split
  · split
    · exact ⟨hplace.shift.shift, h.set, hcold⟩
    · next hage => exact ⟨hplace.shift, h.set, not_lt.mp hage⟩
  next hage =>
  split
  · exact ⟨hplace.spread, h.set, not_lt.mp hage⟩
  split
  · exact ⟨hplace.renew, h.set, not_lt.mp hage⟩
  · exact ⟨hplace, h.set, not_lt.mp hage⟩

theorem after_concat : after win (samples ++ [x]) = (after win samples).update win x.1 x.2 := by
  simp [after]

theorem returned_eq : m.returned win x.1 x.2 = (m.update win x.1 x.2).s0.2 := by
  unfold returned
  split
  · next hcond =>
    rw [WindowedMin.update, if_pos hcond]
  · rfl

/-- The invariant holds after each call, by induction on the calls before it. -/
theorem kept_after (h : (samples ++ [x]).Pairwise fun x y => x.1 ≤ y.1) :
    Kept win (samples ++ [x]) x (after win (samples ++ [x])) := by
  induction samples using List.reverseRecOn generalizing x with
  | nil =>
    have hnew : after win ([] ++ [x]) = { s0 := x, s1 := x, s2 := x, set := true } := rfl
    rw [hnew]
    exact kept_last
  | append_singleton samples y ih =>
    rw [after_concat]
    obtain ⟨hbefore, -, hle⟩ := List.pairwise_append.mp h
    exact (ih hbefore).update (hle y (by simp) x (by simp))

/-- **The windowed minimum is a true recent sample**, and so are the samples kept to follow it. -/
theorem update_recent_min (win : ℕ) (samples : List (ℕ × ℕ)) (t v : ℕ)
    (h : (samples ++ [(t, v)]).Pairwise fun x y => x.1 ≤ y.1) :
    (∃ x, Lowest (samples ++ [(t, v)]) x ∧ t - x.1 ≤ win ∧ (after win samples).returned win t v = x.2) ∧
    ∃ a b c, after win (samples ++ [(t, v)]) = { s0 := a, s1 := b, s2 := c, set := true } ∧
      (a.1 ≤ b.1 ∧ b.1 ≤ c.1) ∧ (a.2 ≤ b.2 ∧ b.2 ≤ c.2) ∧
      ∀ x ∈ [a, b, c], Lowest (samples ++ [(t, v)]) x := by
  have hkept : Kept win _ _ _ := kept_after h
  rw [after_concat] at hkept ⊢
  constructor
  · exact ⟨_, hkept.first, hkept.recent, returned_eq (x := (t, v))⟩
  · refine ⟨_, _, _, ?_, ⟨hkept.times.1, hkept.times.2.1⟩, ⟨hkept.values.1, hkept.values.2.1⟩, ?_⟩
    · rw [← hkept.set]
    · simp only [List.mem_cons, List.not_mem_nil, or_false, forall_eq_or_imp, forall_eq]
      exact ⟨hkept.first, hkept.second, hkept.third⟩

/-- The smallest of three samples has just left the window. -/
theorem update_recent_min_expired : ∃ x, Lowest [(0, 3), (30, 9), (60, 7), (101, 8)] x ∧ 101 - x.1 ≤ 100 ∧
    (after 100 [(0, 3), (30, 9), (60, 7)]).returned 100 101 8 = x.2 :=
  (update_recent_min 100 [(0, 3), (30, 9), (60, 7)] 101 8 (by decide)).1

end PktKit.Vtcp.WindowedMin
